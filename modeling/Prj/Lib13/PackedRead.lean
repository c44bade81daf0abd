import Prj.Lib13.PackedWrite

/-! Reading a packet (`io13_read_packed` in `lib13/io13.c`). A byte of a block that nothing has been
written to is `none`, and so is a run that uses one or writes outside of a block. -/
namespace Prj.Lib13
open Prj.Base List Option

/-- What the calls of one packet share: `buf` is the block `*buf`, `rest` what is still to be read. -/
structure PackedRd where
  h : Io13
  buf : List (Option UInt8)
  count : ℕ
  rest : List UInt8

/-- Where `tmp` points: to `early`, or into the block. -/
inductive Tmp
  | early (mem : List (Option UInt8))
  | block (off : ℕ)

/-- `unpack13(tmp, tmpsize, "L", &h->lastrd)` -/
def unpackHeader : List (Option UInt8) → Option ℕ
  | some a :: some b :: some c :: some d :: _ => some (ofBigEndian [a, b, c, d])
  | _ => none

/-- What the loop does with the bytes of one `read`; `.ok` when it goes on. Later calls have
`rddone > 0`, and do not look for a header. -/
def takePiece (data : List UInt8) (s : PackedRd) : Tmp → Option (Ret × Tmp × PackedRd)
  | .block off => some (.ok, .block off,
      { s with
        h := { s.h with rddone := s.h.rddone + data.length }
        buf := splice s.buf off (data.map some)
        count := s.h.rddone + data.length })
  | .early mem =>
    if earlyBufSize < data.length then none
    else
      let mem := splice mem 0 (data.map some)
      if s.h.rddone = 0 then
        match unpackHeader mem with
        | none => none
        | some 0 => some (.err .empty, .early mem, { s with h := { s.h with lastrd := 0 } })
        | some lastrd =>
          -- `memcpy` of a negative number of bytes, or of more than the block has
          if data.length < 4 ∨ lastrd < data.length - 4 then none
          else some (.ok, .early mem, { s with
              h := { s.h with lastrd, rddone := data.length - 4 }
              buf := splice (List.replicate lastrd none) 0 ((data.drop 4).map some)
              count := data.length - 4 })
      -- these bytes never get to the block
      else some (.ok, .early mem, { s with
          h := { s.h with rddone := s.h.rddone + data.length }
          count := s.h.rddone + data.length })

/-- The loop of `io13_read_packed`. -/
def readPackedLoop (hard : Bool) : Tmp → List Sys → PackedRd → Option (Ret × PackedRd)
  | _, [], s => if s.h.rddone < s.h.lastrd then none else some (.ok, s)
  | tmp, a :: answers, s =>
    if s.h.rddone < s.h.lastrd then
      match a with
      | .again =>
        if s.h.rdhard || hard then readPackedLoop hard tmp answers s else some (.continue_, s)
      | .fail => some (.err .ioerr, s)
      | .part k =>
        let data := s.rest.take (min (s.h.lastrd - s.h.rddone) (k + 1))
        if data = [] then some (.err .toosmall, s)
        else
          match takePiece data { s with rest := s.rest.drop data.length } tmp with
          | none => none
          | some (.ok, tmp, s) =>
            if s.h.rddone = s.h.lastrd then some (.done, s) else readPackedLoop hard tmp answers s
          | some (ret, _, s) => some (ret, s)
    else some (.ok, s)

def io13ReadPacked (hard : Bool) (answers : List Sys) (s : PackedRd) : Option (Ret × PackedRd) :=
  if s.h.rddone = 0 then
    readPackedLoop hard (.early (List.replicate earlyBufSize none)) answers
      { s with h := { s.h with lastrd := earlyBufSize }, count := 0 }
  else readPackedLoop hard (.block s.h.rddone) answers s

def readPacket (hard : Bool) : List (List Sys) → PackedRd → Option (Ret × PackedRd)
  | [], _ => none
  | answers :: calls, s =>
    match io13ReadPacked hard answers s with
    | none => none
    | some (.continue_, s) => readPacket hard calls s
    | some (ret, s) => some (ret, s)

def Received (payload : List UInt8) (r : Option (Ret × PackedRd)) : Prop :=
  ∃ ret s, (ret = .ok ∨ ret = .done) ∧ r = some (ret, s) ∧ s.buf = payload.map some ∧ s.count = payload.length

/-- The pieces of a packet of `n` bytes that can be put together: all of it in the first `read`, or
more than the header in the first `read` and then one piece in each call. -/
def ReceivesFirst (n : ℕ) (hard : Bool) : List (List Sys) → Prop
  | [] => False
  | answers :: calls =>
    match if hard then answers.dropWhile (· = .again) else answers with
    | .again :: _ => ReceivesFirst n hard calls
    | .part k :: answers =>
      4 < firstPiece n k ∧ (firstPiece n k = n + 4 ∨
        hard = false ∧ answers.head? = some .again ∧ PieceByPiece n (firstPiece n k - 4) calls)
    | _ => False

section Runs
variable {hard : Bool} {answers : List Sys} {calls : List (List Sys)} {s s' : PackedRd} {tmp : Tmp}
  {ret : Ret} {data payload : List UInt8} {m n lastrd : ℕ} {mem : List (Option UInt8)} {tmp' : Tmp} {k : ℕ}

theorem readPackedLoop_idle (hge : s.h.lastrd ≤ s.h.rddone) : readPackedLoop hard tmp answers s = some (.ok, s) := by
  cases answers <;> exact if_neg (by omega)

section
variable (hlt : s.h.rddone < s.h.lastrd)
include hlt

theorem readPackedLoop_nil : readPackedLoop hard tmp [] s = none := by
  rw [readPackedLoop, if_pos hlt]

theorem readPackedLoop_again : readPackedLoop hard tmp (.again :: answers) s =
      if s.h.rdhard || hard then readPackedLoop hard tmp answers s else some (.continue_, s) := by
  rw [readPackedLoop, if_pos hlt]

theorem readPackedLoop_fail : readPackedLoop hard tmp (.fail :: answers) s = some (.err .ioerr, s) := by
  rw [readPackedLoop, if_pos hlt]

end

theorem takePiece_ret (h : takePiece data s tmp = some (ret, tmp', s')) : ret = .ok ∨ ∃ e, ret = .err e := by
  cases tmp with
  | block off =>
    cases h
    exact .inl rfl
  | early mem =>
    rw [takePiece] at h
    split_ifs at h
    · simp only at h
      split at h
      · cases h
      · cases h
        exact .inr ⟨_, rfl⟩
      · split_ifs at h
        cases h
        exact .inl rfl
    · cases h
      exact .inl rfl

theorem readPackedLoop_part (hlt : s.h.rddone < s.h.lastrd)
    (hdata : s.rest.take (min (s.h.lastrd - s.h.rddone) (k + 1)) = data) (hne : data ≠ []) :
    readPackedLoop hard tmp (.part k :: answers) s =
      match takePiece data { s with rest := s.rest.drop data.length } tmp with
      | none => none
      | some (.ok, tmp, s) =>
        if s.h.rddone = s.h.lastrd then some (.done, s) else readPackedLoop hard tmp answers s
      | some (ret, _, s) => some (ret, s) := by
  rw [readPackedLoop, if_pos hlt]
  simp only [hdata, if_neg hne]

theorem readPackedLoop_piece (hlt : s.h.rddone < s.h.lastrd)
    (hdata : s.rest.take (min (s.h.lastrd - s.h.rddone) (k + 1)) = data) (hne : data ≠ [])
    (hpiece : takePiece data { s with rest := s.rest.drop data.length } tmp = some (.ok, tmp', s')) :
    readPackedLoop hard tmp (.part k :: answers) s = if s'.h.rddone = s'.h.lastrd then some (.done, s')
      else readPackedLoop hard tmp' answers s' := by
  rw [readPackedLoop_part hlt hdata hne, hpiece]

/-- One turn of the loop keeps `P`. -/
def KeptByPieces (P : Tmp → PackedRd → Prop) : Prop :=
  ∀ tmp s tmp' s' data, P tmp s → data ≠ [] → s.h.rddone + data.length ≤ s.h.lastrd → data.length ≤ s.rest.length →
    takePiece data { s with rest := s.rest.drop data.length } tmp = some (.ok, tmp', s') → P tmp' s'

def LeadsTo (P : Tmp → PackedRd → Prop) (tmp : Tmp) (s : PackedRd) : Prop :=
  ∀ tmp' s' data, data ≠ [] → s.h.rddone + data.length ≤ s.h.lastrd → data.length ≤ s.rest.length →
    takePiece data { s with rest := s.rest.drop data.length } tmp = some (.ok, tmp', s') → P tmp' s'

section
variable {P : Tmp → PackedRd → Prop} (hP : KeptByPieces P)
include hP

/-- If `P` holds after the first piece, it holds in the end, unless no piece comes in this call. -/
theorem readPackedLoop_of_first (hlt : s.h.rddone < s.h.lastrd) (hfirst : LeadsTo P tmp s)
    (hr : readPackedLoop hard tmp answers s = some (ret, s')) : (∃ e, ret = .err e) ∨ (∃ tmp', P tmp' s') ∨
      s' = s ∧ (s.h.rdhard || hard) = false ∧ answers.head? = some .again := by
  induction answers generalizing tmp s with
  | nil => simp [readPackedLoop_nil hlt] at hr
  | cons a answers ih =>
    cases a with
    | again =>
      rw [readPackedLoop_again hlt] at hr
      split_ifs at hr with hhard
      · refine (ih hlt hfirst hr).imp_right (.imp_right fun hnone => ?_)
        rw [hhard] at hnone
        cases hnone.2.1
      · cases hr
        exact .inr (.inr ⟨rfl, by simpa using hhard, rfl⟩)
    | fail =>
      rw [readPackedLoop_fail hlt] at hr
      cases hr
      exact .inl ⟨_, rfl⟩
    | part k =>
      generalize hdata : s.rest.take (min (s.h.lastrd - s.h.rddone) (k + 1)) = data
      have hlen : data.length = min (min (s.h.lastrd - s.h.rddone) (k + 1)) s.rest.length := by
        rw [← hdata, length_take]
      by_cases hnil : data = []
      · rw [readPackedLoop, if_pos hlt] at hr
        simp only [hdata, if_pos hnil] at hr
        cases hr
        exact .inl ⟨_, rfl⟩
      rw [readPackedLoop_part hlt hdata hnil] at hr
      cases hpiece : takePiece data { s with rest := s.rest.drop data.length } tmp with
      | none => simp [hpiece] at hr
      | some r =>
        obtain ⟨ret1, tmp1, s1⟩ := r
        rw [hpiece] at hr
        rcases takePiece_ret hpiece with rfl | ⟨e, rfl⟩
        · have hstep := hfirst tmp1 s1 data hnil (by omega) (by omega) hpiece
          simp only at hr
          split_ifs at hr with hend
          · cases hr
            exact .inr (.inl ⟨tmp1, hstep⟩)
          · by_cases hlt1 : s1.h.rddone < s1.h.lastrd
            · refine (ih hlt1 (hP tmp1 s1 · · · hstep) hr).imp_right fun hlater => ?_
              exact .inl (hlater.elim id fun hnone => ⟨tmp1, hnone.1 ▸ hstep⟩)
            · rw [readPackedLoop_idle (by omega)] at hr
              cases hr
              exact .inr (.inl ⟨tmp1, hstep⟩)
        · cases hr
          exact .inl ⟨e, rfl⟩

theorem readPackedLoop_kept (h : P tmp s) (hr : readPackedLoop hard tmp answers s = some (ret, s')) :
    (∃ e, ret = .err e) ∨ ∃ tmp', P tmp' s' := by
  by_cases hlt : s.h.rddone < s.h.lastrd
  · refine (readPackedLoop_of_first hP hlt (hP tmp s · · · h) hr).imp_right fun hlater => ?_
    exact hlater.elim id fun hnone => ⟨tmp, hnone.1 ▸ h⟩
  · rw [readPackedLoop_idle (by omega)] at hr
    cases hr
    exact .inr ⟨tmp, h⟩

end

def afterRead (hard : Bool) (calls : List (List Sys)) : Option (Ret × PackedRd) → Option (Ret × PackedRd)
  | none => none
  | some (.continue_, s) => readPacket hard calls s
  | some (ret, s) => some (ret, s)

theorem readPacket_cons : readPacket hard (answers :: calls) s =
    afterRead hard calls (io13ReadPacked hard answers s) := by
  rw [readPacket]
  rcases io13ReadPacked hard answers s with _ | ⟨ret, s'⟩
  · rfl
  · cases ret <;> rfl

/-- The state between two calls, seen from the one that is to come. -/
def EntersWith (P : Tmp → PackedRd → Prop) (s : PackedRd) : Prop :=
  if s.h.rddone = 0 then
    P (.early (List.replicate earlyBufSize none)) { s with h := { s.h with lastrd := earlyBufSize }, count := 0 }
  else P (.block s.h.rddone) s

theorem afterRead_kept {P : Tmp → PackedRd → Prop} {r : Option (Ret × PackedRd)}
    (henter : ∀ tmp s, P tmp s → EntersWith P s)
    (hcall : ∀ ret1 s1, r = some (ret1, s1) → (∃ e, ret1 = .err e) ∨ ∃ tmp', P tmp' s1)
    (hlater : ∀ s1, EntersWith P s1 → readPacket hard calls s1 = some (ret, s') →
      (∃ e, ret = .err e) ∨ ∃ tmp', P tmp' s')
    (hr : afterRead hard calls r = some (ret, s')) : (∃ e, ret = .err e) ∨ ∃ tmp', P tmp' s' := by
  rcases r with _ | ⟨ret1, s1⟩
  · cases hr
  rcases hcall ret1 s1 rfl with ⟨e, rfl⟩ | ⟨tmp1, h1⟩
  · cases hr
    exact .inl ⟨e, rfl⟩
  · cases ret1 with
    | continue_ => exact hlater s1 (henter tmp1 s1 h1) hr
    | ok | done =>
      cases hr
      exact .inr ⟨tmp1, h1⟩
    | err e =>
      cases hr
      exact .inl ⟨e, rfl⟩

section
variable {P : Tmp → PackedRd → Prop} (hP : KeptByPieces P) (henter : ∀ tmp s, P tmp s → EntersWith P s)
include hP henter

theorem readPacket_kept (h : EntersWith P s)
    (hr : readPacket hard calls s = some (ret, s')) : (∃ e, ret = .err e) ∨ ∃ tmp', P tmp' s' := by
  induction calls generalizing s with
  | nil => simp [readPacket] at hr
  | cons answers calls ih =>
    refine afterRead_kept henter (fun ret1 s1 hcall => ?_) (fun s1 => ih) hr
    unfold EntersWith at h
    unfold io13ReadPacked at hcall
    split_ifs at h hcall
    all_goals exact readPackedLoop_kept hP h hcall

end

/-- At most `m` bytes of payload, and fewer than 2 ^ 32, can still be counted. -/
def Bounded (m : ℕ) (tmp : Tmp) (s : PackedRd) : Prop :=
  s.count = s.h.rddone ∧ if s.h.rddone = 0 then s.rest.length ≤ m + 4 ∧ ∃ mem, tmp = .early mem
    else s.h.rddone ≤ s.h.lastrd ∧ s.h.lastrd < 2 ^ 32 ∧ s.h.rddone + s.rest.length ≤ m

theorem unpackHeader_lt (h : unpackHeader mem = some n) : n < 2 ^ 32 := by
  unfold unpackHeader at h
  split at h
  · rw [← some.inj h]
    exact Nat.lt_of_lt_of_eq (ofBigEndian_lt _) (by norm_num)
  · simp at h

theorem takePiece_on (hpos : 0 < s.h.rddone) (h : takePiece data s tmp = some (.ok, tmp', s')) :
    s'.h.rddone = s.h.rddone + data.length ∧ s'.h.lastrd = s.h.lastrd ∧ s'.count = s.h.rddone + data.length ∧
      s'.rest = s.rest ∧ ((∃ off, tmp = .block off ∧ tmp' = .block off ∧ s'.buf = splice s.buf off (data.map some)) ∨
        ∃ mem mem', tmp = .early mem ∧ tmp' = .early mem' ∧ s'.buf = s.buf) := by
  cases tmp with
  | block off =>
    obtain ⟨rfl, rfl⟩ := h
    exact ⟨rfl, rfl, rfl, rfl, .inl ⟨off, rfl, rfl, rfl⟩⟩
  | early mem =>
    rw [takePiece] at h
    split_ifs at h with hbig hzero
    · omega
    · obtain ⟨rfl, rfl⟩ := h
      exact ⟨rfl, rfl, rfl, rfl, .inr ⟨mem, _, rfl, rfl, rfl⟩⟩

theorem takePiece_first_ok (hzero : s.h.rddone = 0)
    (h : takePiece data s (.early mem) = some (.ok, tmp', s')) : ∃ lastrd mem', 0 < lastrd ∧
      unpackHeader (splice mem 0 (data.map some)) = some lastrd ∧ 4 ≤ data.length ∧ data.length - 4 ≤ lastrd ∧
      tmp' = .early mem' ∧ s'.h = { s.h with lastrd, rddone := data.length - 4 } ∧ s'.count = data.length - 4 ∧
      s'.rest = s.rest := by
  rw [takePiece] at h
  split_ifs at h
  simp only at h
  split at h
  · cases h
  · cases h
  · next lastrd hne hheader =>
    split_ifs at h with hbad
    cases h
    exact ⟨lastrd, _, Nat.pos_of_ne_zero hne, hheader, by omega, by omega, rfl, rfl, rfl, rfl⟩

theorem bounded_kept (m : ℕ) : KeptByPieces (Bounded m) := by
  rintro tmp s tmp' s' data ⟨hcount, hbound⟩ hne hroom hrest hpiece
  by_cases hzero : s.h.rddone = 0
  · rw [if_pos hzero] at hbound
    obtain ⟨hlen, mem, rfl⟩ := hbound
    obtain ⟨lastrd, mem', -, hheader, hfour, hle, rfl, hh, hc, hr⟩ := takePiece_first_ok (by exact hzero) hpiece
    have hlt := unpackHeader_lt hheader
    refine ⟨by rw [hc, hh], ?_⟩
    rw [hh, hr]
    simp only [length_drop]
    split_ifs
    · exact ⟨by omega, _, rfl⟩
    · omega
  · rw [if_neg hzero] at hbound
    obtain ⟨hdone, hlast, hc, hr, -⟩ := takePiece_on (s := { s with rest := s.rest.drop data.length })
      (by simp only; omega) hpiece
    refine ⟨by rw [hc, hdone], ?_⟩
    rw [hdone, hlast, hr, if_neg (by simp only; omega)]
    simp only [length_drop]
    omega

theorem bounded_enters (m : ℕ) (tmp : Tmp) (s : PackedRd) (h : Bounded m tmp s) : EntersWith (Bounded m) s := by
  obtain ⟨hcount, hbound⟩ := h
  unfold EntersWith
  split_ifs at hbound ⊢ with hzero
  · exact ⟨hzero.symm, by rw [if_pos (by exact hzero)]; exact ⟨hbound.1, _, rfl⟩⟩
  · exact ⟨hcount, by rw [if_neg hzero]; exact hbound⟩

/-- A byte of the payload that was counted and never written. `tmp` can only write after it, or
the writes of this call stay behind what they count. -/
def Hole (tmp : Tmp) (s : PackedRd) : Prop :=
  s.h.rddone ≤ s.h.lastrd ∧ s.buf.length = s.h.lastrd ∧
    ((∃ p < s.h.rddone, s.buf[p]? = some none ∧ ∀ off, tmp = .block off → p < off ∧ off ≤ s.h.rddone) ∨
      0 < s.h.rddone ∧ (∀ off, tmp = .block off → off < s.h.rddone) ∧
        ∀ q, s.h.rddone ≤ q + 1 → q < s.h.lastrd → s.buf[q]? = some none)

theorem Hole.exists_none (h : Hole tmp s) : ∃ p < s.h.rddone, s.buf[p]? = some none := by
  obtain ⟨hle, -, ⟨p, hp, hnone, -⟩ | ⟨hpos, -, hnone⟩⟩ := h
  · exact ⟨p, hp, hnone⟩
  · exact ⟨s.h.rddone - 1, by omega, hnone _ (by omega) (by omega)⟩

theorem hole_enters (tmp : Tmp) (s : PackedRd) (h : Hole tmp s) : EntersWith Hole s := by
  obtain ⟨p, hp, hnone⟩ := h.exists_none
  obtain ⟨hle, hlen, -⟩ := h
  rw [EntersWith, if_neg (by omega)]
  refine ⟨hle, hlen, .inl ⟨p, hp, hnone, ?_⟩⟩
  rintro off hoff
  cases hoff
  exact ⟨hp, Nat.le_refl _⟩

theorem hole_of_behind (hpos : 0 < s.h.rddone) (hroom : s.h.rddone + data.length ≤ s.h.lastrd)
    (hlen : s.buf.length = s.h.lastrd) (htmp : ∀ off, tmp = .block off → off < s.h.rddone)
    (hnone : ∀ q, s.h.rddone ≤ q → q < s.h.lastrd → s.buf[q]? = some none) (hne : data ≠ [])
    (hpiece : takePiece data s tmp = some (.ok, tmp', s')) : Hole tmp' s' := by
  have hd : 0 < data.length := length_pos_iff.2 hne
  obtain ⟨hdone, hlast, -, -, hbuf⟩ := takePiece_on hpos hpiece
  rcases hbuf with ⟨off, rfl, rfl, hbuf⟩ | ⟨mem, mem', rfl, rfl, hbuf⟩
  · have hoff := htmp off rfl
    refine ⟨by omega, by rw [hbuf, hlast, length_splice (by simp; omega), hlen], .inr ⟨by omega, ?_, ?_⟩⟩
    · rintro _ ⟨⟩
      omega
    · intro q hq hql
      rw [hbuf, getElem?_splice_of_le (by simp; omega) (by omega)]
      exact hnone q (by omega) (by omega)
  · refine ⟨by omega, by rw [hbuf, hlast, hlen], .inr ⟨by omega, by simp, fun q hq hql => ?_⟩⟩
    rw [hbuf]
    exact hnone q (by omega) (by omega)

theorem hole_kept : KeptByPieces Hole := by
  rintro tmp s tmp' s' data ⟨hle, hlen, ⟨p, hp, hnone, htmp⟩ | ⟨hpos, htmp, hnone⟩⟩ hne hroom hrest hpiece
  · obtain ⟨hdone, hlast, -, -, hbuf⟩ := takePiece_on (by simp only; omega) hpiece
    simp only at hdone hlast
    rcases hbuf with ⟨off, rfl, rfl, hbuf⟩ | ⟨mem, mem', rfl, rfl, hbuf⟩
    · obtain ⟨hp', hoff⟩ := htmp off rfl
      refine ⟨by omega, by rw [hbuf, hlast, length_splice (by simp; omega), hlen], .inl ⟨p, by omega, ?_, ?_⟩⟩
      · rw [hbuf, getElem?_splice_of_lt hp' (by simp only; omega), hnone]
      · rintro _ ⟨⟩
        exact ⟨hp', by omega⟩
    · exact ⟨by omega, by rw [hbuf, hlast, hlen], .inl ⟨p, by omega, by rw [hbuf, hnone], by simp⟩⟩
  · exact hole_of_behind (s := { s with rest := s.rest.drop data.length }) hpos hroom hlen htmp
      (fun q hq => hnone q (Nat.le_succ_of_le hq)) hne hpiece

theorem Hole.ne_map_some (h : Hole tmp s) : s.buf ≠ payload.map some := by
  intro hbuf
  obtain ⟨p, -, hnone⟩ := h.exists_none
  rw [hbuf] at hnone
  cases hp : payload[p]? <;> simp [hp] at hnone

end Runs
end Prj.Lib13
