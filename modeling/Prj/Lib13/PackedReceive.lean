import Prj.Lib13.PackedRead
import Prj.Lib13.PackedSend

/-! When `io13_read_packed` puts a packet together. -/
namespace Prj.Lib13
open Prj.Base List

section Payload
variable {hard : Bool} {answers : List Sys} {calls : List (List Sys)} {h : Io13} {s : PackedRd}
  {tmp : Tmp} {payload : List UInt8} {w k q : ℕ}

theorem not_received_none : ¬Received payload (afterRead hard calls none) := by
  simp [Received, afterRead]

theorem not_received_err {e : E13} : ¬Received payload (afterRead hard calls (some (.err e, s))) := by
  simp [Received, afterRead]

theorem not_received_of_stop (hlt : s.h.rddone < s.h.lastrd) (hstop : ∀ a ∈ answers.head?, a = .fail) :
    ¬Received payload (afterRead hard calls (readPackedLoop hard tmp answers s)) := by
  cases answers with
  | nil =>
    rw [readPackedLoop_nil hlt]
    exact not_received_none
  | cons a answers =>
    obtain rfl := hstop a rfl
    rw [readPackedLoop_fail hlt]
    exact not_received_err

def got (payload : List UInt8) (h : Io13) (w : ℕ) : PackedRd where
  h := { h with rddone := w, lastrd := payload.length }
  buf := copied (payload.map some) (List.replicate payload.length none) w
  count := w
  rest := payload.drop w

theorem length_got_buf (hw : w ≤ payload.length) : (got payload h w).buf.length = payload.length := by
  simp only [got, copied, length_append, length_take, length_map, length_drop, length_replicate]
  omega

theorem getElem?_got_buf (hw : w ≤ q) (hq : q < payload.length) : (got payload h w).buf[q]? = some none := by
  have hlen : ((payload.map some).take w).length = w := by
    rw [length_take, length_map]
    omega
  simp only [got, copied]
  rw [getElem?_append_right (by omega), hlen, getElem?_drop, getElem?_replicate, if_pos (by omega)]

variable {data : List UInt8}

section
variable (hpos : 0 < w) (hlt : w < payload.length) (htmp : ∀ off, tmp = .block off → off < w)
include hpos hlt htmp

theorem not_received_next (hnext : (h.rdhard || hard) = true ∨ answers.head? ≠ some .again) :
    ¬Received payload (afterRead hard calls (readPackedLoop hard tmp answers (got payload h w))) := by
  rintro ⟨ret, s', hret, hr, hbuf, -⟩
  have hfirst : LeadsTo Hole tmp (got payload h w) := fun _ _ _ hne hroom _ =>
    hole_of_behind hpos hroom (length_got_buf (h := h) hlt.le) htmp (fun _ => getElem?_got_buf (h := h)) hne
  have hkept := afterRead_kept hole_enters (fun ret1 s1 hcall => ?_) (fun _ => readPacket_kept hole_kept hole_enters) hr
  · rcases hkept with ⟨e, rfl⟩ | ⟨tmp', hhole⟩
    · simp at hret
    · exact hhole.ne_map_some hbuf
  · refine (readPackedLoop_of_first hole_kept hlt hfirst hcall).imp_right fun hlater => hlater.resolve_right ?_
    rintro ⟨-, hsoft, hagain⟩
    exact hnext.elim (fun hhard => nomatch hsoft.symm.trans hhard) fun hne => hne hagain

end

theorem takePiece_got (hle : w + k ≤ payload.length) : takePiece ((payload.drop w).take k) { got payload h w with
          rest := (got payload h w).rest.drop ((payload.drop w).take k).length } (.block w) =
      some (.ok, .block w, got payload h (w + k)) := by
  have hlen : ((payload.drop w).take k).length = k := by
    rw [length_take, length_drop]
    omega
  have hbuf : splice (copied (payload.map some) (List.replicate payload.length none) w) w
      (((payload.drop w).take k).map some) =
      copied (payload.map some) (List.replicate payload.length none) (w + k) := by
    rw [map_take, map_drop]
    exact splice_copied (by rw [length_map]; exact hle)
  simp only [takePiece, got, hlen, hbuf, drop_drop]

theorem received_got (hlen : w = payload.length) {ret : Ret} (hret : ret = .ok ∨ ret = .done) :
    Received payload (afterRead hard calls (some (ret, got payload h w))) := by
  subst hlen
  refine ⟨ret, got payload h payload.length, hret, ?_, ?_, rfl⟩
  · rcases hret with rfl | rfl <;> rfl
  · have hmap : (payload.map some).length = payload.length := length_map some
    simp only [got]
    rw [← hmap, copied_length, hmap, drop_replicate, Nat.sub_self, replicate_zero, append_nil]

theorem received_on_iff (hsoft : (h.rdhard || hard) = false) (hpos : 0 < w) (hlt : w < payload.length) :
    Received payload (readPacket hard calls (got payload h w)) ↔ PieceByPiece payload.length w calls := by
  induction calls generalizing w with
  | nil => simp [readPacket, Received, PieceByPiece]
  | cons answers calls ih =>
    have hroom : (got payload h w).h.rddone < (got payload h w).h.lastrd := hlt
    have hon : readPacket hard (answers :: calls) (got payload h w) = afterRead hard calls
        (readPackedLoop hard (.block w) answers (got payload h w)) := by
      rw [readPacket_cons, io13ReadPacked, if_neg (by exact hpos.ne')]
      rfl
    rw [hon]
    rcases answers with _ | ⟨_ | _ | k, answers⟩
    case nil | cons.fail => exact iff_of_false (not_received_of_stop hroom (by simp)) (by simp [PieceByPiece]; omega)
    · rw [readPackedLoop_again hroom, if_neg (by simpa [got] using hsoft)]
      have hih := ih hpos hlt
      rw [PieceByPiece]
      simp only [hlt.ne, false_or]
      exact hih
    · have hle : w + min (payload.length - w) (k + 1) ≤ payload.length := by omega
      have hne : (payload.drop w).take (min (payload.length - w) (k + 1)) ≠ [] := by
        refine ne_nil_of_length_pos ?_
        rw [length_take, length_drop]
        omega
      rw [readPackedLoop_piece hroom rfl hne (takePiece_got hle), PieceByPiece]
      simp only [hlt.ne, false_or]
      by_cases hend : w + min (payload.length - w) (k + 1) = payload.length
      · rw [if_pos (by exact hend)]
        exact iff_of_true (received_got hend (.inr rfl)) (.inl hend)
      rw [if_neg (by exact hend)]
      by_cases hagain : answers.head? = some .again
      · obtain ⟨as, rfl⟩ := head?_eq_some_iff.1 hagain
        rw [readPackedLoop_again (by simp only [got]; omega), if_neg (by simpa [got] using hsoft)]
        simp only [hend, head?_cons, true_and, false_or]
        exact ih (by omega) (by omega)
      · refine iff_of_false (not_received_next (by omega) (by omega) ?_ (.inr hagain)) ?_
        · rintro off hoff
          cases hoff
          omega
        · simp [hend, hagain]

/-! The first call. -/

def arriving (payload : List UInt8) (h : Io13) (buf : List (Option UInt8)) (count : ℕ) : PackedRd where
  h := { h with rddone := 0 }
  buf := buf
  count := count
  rest := packetHeader payload.length ++ payload

def begun (payload : List UInt8) (h : Io13) (buf : List (Option UInt8)) : PackedRd where
  h := { h with rddone := 0, lastrd := earlyBufSize }
  buf := buf
  count := 0
  rest := packetHeader payload.length ++ payload

variable {buf : List (Option UInt8)} {count : ℕ}

theorem readPacket_arriving (count : ℕ) :
    readPacket hard (answers :: calls) (arriving payload h buf count) = afterRead hard calls
      (readPackedLoop hard (.early (List.replicate earlyBufSize none)) answers (begun payload h buf)) := by
  rfl

theorem length_first (payload : List UInt8) (k : ℕ) : ((packetHeader payload.length ++ payload).take
    (min (earlyBufSize - 0) (k + 1))).length = firstPiece payload.length k := by
  rw [length_take, length_append, packetHeader, length_bigEndian, firstPiece]
  omega

theorem unpackHeader_short (hlen : data.length < 4) :
    unpackHeader (splice (List.replicate earlyBufSize none) 0 (data.map some)) = none := by
  match data with
  | [] => rfl
  | [_] => rfl
  | [_, _] => rfl
  | [_, _, _] => rfl
  | _ :: _ :: _ :: _ :: _ => simp at hlen; omega

variable {mem : List (Option UInt8)}

theorem unpackHeader_packet (hlt : payload.length < 2 ^ 32) :
    unpackHeader ((packetHeader payload.length).map some ++ mem) = some payload.length := by
  have hval : (ofBigEndian (packetHeader payload.length) : ℤ) = payload.length := by
    rw [packetHeader, ofBigEndian_bigEndian, Int.emod_eq_of_lt (by omega) (by norm_num; omega)]
  obtain ⟨a, b, c, d, hbytes⟩ : ∃ a b c d, packetHeader payload.length = [a, b, c, d] :=
    ⟨_, _, _, _, rfl⟩
  exact congrArg some (by exact_mod_cast hval)

theorem take_first (hfirst : firstPiece payload.length k = w + 4) :
    (packetHeader payload.length ++ payload).take (min (earlyBufSize - 0) (k + 1)) =
      packetHeader payload.length ++ payload.take w := by
  have hhead : (packetHeader payload.length).length = 4 := length_bigEndian 4 _
  have hmin := length_first payload k
  rw [length_take, length_append, hhead, hfirst] at hmin
  rw [take_append, hhead, take_of_length_le (by omega)]
  rcases Nat.lt_or_ge w payload.length with hw | hw
  · congr 2
    omega
  · rw [take_of_length_le (by omega), take_of_length_le hw]

theorem takePiece_first (h : Io13) (buf : List (Option UInt8)) (hlt : payload.length < 2 ^ 32)
    (hpos : 0 < payload.length) (hw : w ≤ payload.length) (hsmall : w + 4 ≤ earlyBufSize) :
    ∃ mem, takePiece (packetHeader payload.length ++ payload.take w) { begun payload h buf with
          rest := (begun payload h buf).rest.drop (packetHeader payload.length ++ payload.take w).length }
        (.early (List.replicate earlyBufSize none)) = some (.ok, .early mem, got payload h w) := by
  have hhead : (packetHeader payload.length).length = 4 := length_bigEndian 4 _
  have hlen : (packetHeader payload.length ++ payload.take w).length = w + 4 := by
    rw [length_append, hhead, length_take]
    omega
  have hrest : (packetHeader payload.length ++ payload).drop (w + 4) = payload.drop w := by
    rw [drop_append, hhead, Nat.add_sub_cancel, drop_eq_nil_of_le (by omega), nil_append]
  have hmem : splice (List.replicate earlyBufSize none) 0 ((packetHeader payload.length ++ payload.take w).map some) =
      (packetHeader payload.length).map some ++ ((payload.take w).map some ++
        (List.replicate earlyBufSize none).drop (w + 4)) := by
    rw [splice, length_map, hlen]
    simp
  have hbuf : splice (List.replicate payload.length none) 0
      (((packetHeader payload.length ++ payload.take w).drop 4).map some) =
      copied (payload.map some) (List.replicate payload.length none) w := by
    rw [drop_left' hhead, map_take, splice, copied]
    simp
    omega
  refine ⟨splice (List.replicate earlyBufSize none) 0 ((packetHeader payload.length ++ payload.take w).map some), ?_⟩
  rw [takePiece, if_neg (by omega)]
  simp only [hmem, unpackHeader_packet hlt, begun, if_true]
  split
  next h => cases h
  next h => exact absurd (Option.some.inj h) hpos.ne'
  next h =>
    obtain rfl := Option.some.inj h
    rw [if_neg (by omega), hlen, hbuf, Nat.add_sub_cancel, hrest]
    rfl

theorem begun_lt : (begun payload h buf).h.rddone < (begun payload h buf).h.lastrd := by
  change 0 < earlyBufSize
  decide

theorem first_ne_nil : (packetHeader payload.length ++ payload).take (min (earlyBufSize - 0) (k + 1)) ≠ [] := by
  refine ne_nil_of_length_pos ?_
  rw [length_first, firstPiece, earlyBufSize]
  omega

theorem readPackedLoop_first (hard : Bool) (answers : List Sys) (h : Io13)
    (buf : List (Option UInt8)) (hlt : payload.length < 2 ^ 32) (hpos : 0 < payload.length)
    (hfirst : firstPiece payload.length k = w + 4) :
    ∃ mem, readPackedLoop hard (.early (List.replicate earlyBufSize none)) (.part k :: answers)
        (begun payload h buf) = if w = payload.length then some (.done, got payload h w)
      else readPackedLoop hard (.early mem) answers (got payload h w) := by
  have hle := firstPiece_le payload.length k
  rw [firstLast_eq] at hle
  obtain ⟨mem, hpiece⟩ := takePiece_first h buf (w := w) hlt hpos (by omega) (by omega)
  exact ⟨mem, readPackedLoop_piece begun_lt (take_first hfirst)
    (by rw [← take_first hfirst]; exact first_ne_nil) hpiece⟩

theorem not_received_of_piece (hlt : s.h.rddone < s.h.lastrd)
    (hdata : s.rest.take (min (s.h.lastrd - s.h.rddone) (k + 1)) = data) (hne : data ≠ []) (hpiece : ∀ tmp' s',
      takePiece data { s with rest := s.rest.drop data.length } tmp ≠ some (.ok, tmp', s')) :
    ¬Received payload (afterRead hard calls (readPackedLoop hard tmp (.part k :: answers) s)) := by
  rw [readPackedLoop_part hlt hdata hne]
  cases hr : takePiece data { s with rest := s.rest.drop data.length } tmp with
  | none => exact not_received_none
  | some r =>
    obtain ⟨ret, tmp', s'⟩ := r
    rcases takePiece_ret hr with rfl | ⟨e, rfl⟩
    · exact absurd hr (hpiece tmp' s')
    · exact not_received_err

theorem not_received_short (hfirst : firstPiece payload.length k < 4 ∨ payload.length = 0) :
    ¬Received payload (readPacket hard ((.part k :: answers) :: calls) (arriving payload h buf count)) := by
  have hlen := length_first payload k
  refine not_received_of_piece begun_lt rfl first_ne_nil fun tmp' s' hpiece => ?_
  obtain ⟨n, -, hn, hheader, -⟩ := takePiece_first_ok rfl hpiece
  change unpackHeader (splice _ 0 (((packetHeader payload.length ++ payload).take
    (min (earlyBufSize - 0) (k + 1))).map some)) = some n at hheader
  by_cases hshort : firstPiece payload.length k < 4
  · rw [unpackHeader_short (by omega)] at hheader
    cases hheader
  · have hnil := hfirst.resolve_left hshort
    have hle := firstPiece_le payload.length k
    rw [take_first (w := 0) (by omega), splice, take_zero, map_append, take_zero,
      nil_append, append_assoc, unpackHeader_packet (by omega), hnil] at hheader
    exact hn.ne (Option.some.inj hheader)

/-- A first piece that is just the header: what follows is taken for another header. -/
theorem not_received_header (hpos : 0 < payload.length) : ¬Received payload
      (afterRead hard calls (readPackedLoop hard (.early mem) answers (got payload h 0))) := by
  rintro ⟨ret, s', hret, hr, -, hcount⟩
  have hbound : Bounded (payload.length - 4) (.early mem) (got payload h 0) := by
    refine ⟨rfl, ?_⟩
    exact ⟨by simp only [got, drop_zero]; omega, mem, rfl⟩
  rcases afterRead_kept (bounded_enters _) (fun _ _ => readPackedLoop_kept (bounded_kept _) hbound)
      (fun _ => readPacket_kept (bounded_kept _) (bounded_enters _)) hr with ⟨e, rfl⟩ | ⟨tmp', hcount', hbound'⟩
  · simp at hret
  · rw [if_neg (by omega)] at hbound'
    omega

theorem received_part_iff (hlt : payload.length < 2 ^ 32) :
    Received payload (readPacket hard ((.part k :: answers) :: calls) (arriving payload h buf count)) ↔
      4 < firstPiece payload.length k ∧ (firstPiece payload.length k = payload.length + 4 ∨
        (h.rdhard || hard) = false ∧ answers.head? = some .again ∧
          PieceByPiece payload.length (firstPiece payload.length k - 4) calls) := by
  by_cases hbad : firstPiece payload.length k < 4 ∨ payload.length = 0
  · have hle := firstPiece_le payload.length k
    exact iff_of_false (not_received_short hbad) (by omega)
  obtain ⟨w, hw⟩ : ∃ w, firstPiece payload.length k = w + 4 :=
    ⟨firstPiece payload.length k - 4, by omega⟩
  have hle := firstPiece_le payload.length k
  obtain ⟨mem, hloop⟩ := readPackedLoop_first hard answers h buf hlt (by omega) hw
  rw [readPacket_arriving, hloop, hw, Nat.add_sub_cancel]
  by_cases hend : w = payload.length
  · rw [if_pos hend]
    exact iff_of_true (received_got hend (.inr rfl)) ⟨by omega, .inl (by omega)⟩
  rw [if_neg hend]
  by_cases hzero : w = 0
  · subst hzero
    exact iff_of_false (not_received_header (by omega)) (by omega)
  by_cases hnext : (h.rdhard || hard) = false ∧ answers.head? = some .again
  · obtain ⟨hsoft, hagain⟩ := hnext
    obtain ⟨as, rfl⟩ := head?_eq_some_iff.1 hagain
    rw [readPackedLoop_again (by simp only [got]; omega), if_neg (by simpa [got] using hsoft)]
    refine (received_on_iff hsoft (by omega) (by omega)).trans ⟨fun hon => ?_, ?_⟩
    · exact ⟨by omega, .inr ⟨hsoft, rfl, hon⟩⟩
    · rintro ⟨-, hall | ⟨-, -, hon⟩⟩
      · omega
      · exact hon
  · refine iff_of_false (not_received_next (by omega) (by omega) (by simp) ?_) ?_
    · by_contra hno
      exact hnext (by simpa [not_or] using hno)
    · rintro ⟨-, hall | ⟨hsoft, hagain, -⟩⟩
      · omega
      · exact hnext ⟨hsoft, hagain⟩

theorem length_lt_of_received (h : Received payload (readPacket hard calls (arriving payload h buf count))) :
    payload.length < 2 ^ 32 := by
  obtain ⟨ret, s', hret, hr, -, hcount⟩ := h
  have hbound : EntersWith (Bounded payload.length) (arriving payload h buf count) := by
    refine ⟨rfl, ?_⟩
    exact ⟨by simp [arriving, packetHeader]; omega, _, rfl⟩
  rcases readPacket_kept (bounded_kept _) (bounded_enters _) hbound hr with
    ⟨e, rfl⟩ | ⟨tmp', hcount', hbound'⟩
  · simp at hret
  · split_ifs at hbound' <;> omega

/-- `io13_read_packed` on a packet returns the payload exactly if it can count it, the first `read`
gets more than the header, and it gets all or one piece comes with each call. -/
theorem readPacket_iff : Received payload (readPacket hard calls (arriving payload h buf count)) ↔
    payload.length < 2 ^ 32 ∧ ReceivesFirst payload.length (h.rdhard || hard) calls := by
  by_cases hlt : payload.length < 2 ^ 32
  swap
  · exact iff_of_false (fun hrec => hlt (length_lt_of_received hrec)) fun hok => hlt hok.1
  simp only [hlt, true_and]
  induction calls generalizing h count with
  | nil => simp [readPacket, Received, ReceivesFirst]
  | cons answers calls ih =>
    rw [readPacket_arriving]
    induction answers with
    | nil => exact iff_of_false (not_received_of_stop begun_lt (by simp)) (by simp [ReceivesFirst])
    | cons a answers ih' =>
      cases a with
      | fail => exact iff_of_false (not_received_of_stop begun_lt (by simp)) (by simp [ReceivesFirst])
      | again =>
        -- with `IO13_IOF_HARD` the call waits for its first bytes
        rw [readPackedLoop_again begun_lt]
        cases hhard : (h.rdhard || hard) with
        | true =>
          rw [if_pos (by exact hhard), ih', hhard]
          simp [ReceivesFirst]
        | false =>
          rw [if_neg (by simpa [begun] using hhard)]
          have hih := @ih { h with lastrd := earlyBufSize } 0
          simp only [hhard] at hih
          exact hih
      | part k =>
        rw [← readPacket_arriving count, received_part_iff hlt]
        cases (h.rdhard || hard) <;> simp [ReceivesFirst]

end Payload

/-- The writer and the reader of packets. `io13_write_packed` sends every payload of `n` bytes exactly
once when no flag is `IO13_IOF_HARD`, its first `write` sends more than the header and every `write`
ends its call; `io13_read_packed` returns the payload under `ReceivesFirst`. -/
theorem io13Packed_iff (h : Io13) (hard : Bool) (calls : List (List Sys)) :
    (∀ n, (∀ payload : List UInt8, payload.length = n →
        Sent payload (writePacket payload hard calls { h with wrdone := 0 } [])) ↔
      (h.wrhard || hard) = false ∧ SendsFirst n calls) ∧
    ∀ (payload : List UInt8) (buf : List (Option UInt8)) (count : ℕ),
      Received payload (readPacket hard calls (arriving payload h buf count)) ↔
        payload.length < 2 ^ 32 ∧ ReceivesFirst payload.length (h.rdhard || hard) calls :=
  ⟨fun n => writePacket_iff n rfl, fun _ _ _ => readPacket_iff⟩

/-- One byte, and a `write` that takes all it is given: the header goes out a second time. -/
theorem not_sent_one_byte : ¬Sent [7] (writePacket [7] false [[.part 9, .part 9]] ⟨0, 0, 0, 0, false, false⟩ []) := by
  rintro ⟨ret, -, hr⟩
  have hout : writePacket [7] false [[.part 9, .part 9]] ⟨0, 0, 0, 0, false, false⟩ [] =
      some (.done, [0, 0, 0, 1, 7, 0, 0, 0, 1]) := by decide
  rw [hout] at hr
  simp [packetHeader, bigEndian] at hr

end Prj.Lib13
