import Prj.Lib13.Io

/-! When `io13_copy_file2` ends, and what it leaves. The counters `rddone` and `wrdone` are never
reset, and `lastrd` is the size of the last `read` and not of what is in the buffer. -/
namespace Prj.Lib13
open Prj.Base Option

def AllPart (answers : List Sys) : Prop := ∀ a ∈ answers, ∃ k, a = .part k

theorem AllPart.tail {a : Sys} {answers : List Sys} (h : AllPart (a :: answers)) :
    AllPart answers := fun b hb => h b (List.mem_cons_of_mem a hb)

theorem allPart_cons {k : ℕ} {answers : List Sys} (h : AllPart answers) : AllPart (.part k :: answers) := by
  intro a ha
  rcases List.mem_cons.1 ha with rfl | ha
  · exact ⟨k, rfl⟩
  · exact h a ha

section Read
variable {count size : ℕ} {hard : Bool} {answers : List Sys} {h : Io13} {buf rest : List UInt8} {r : RdRun}

/-- `io13_read` fills the buffer, or comes to the end of the file. -/
structure ReadTo (count : ℕ) (h : Io13) (rest : List UInt8) (r : RdRun) : Prop where
  answers : AllPart r.answers
  total : r.h.rddone + r.rest.length = h.rddone + rest.length
  ends : r.ret = .ok ∧ count ≤ r.h.rddone ∨ r.ret = .done ∧ r.h.rddone < count ∧ r.rest = [] ∧ r.h.lastrd = 0

/-- The buffer keeps its size, no `read` gives more than it holds, and once some of the file has been read none gives
all of it. -/
theorem io13Read_spec (ha : AllPart answers) (hr : io13Read count hard answers h buf rest = some r) :
    ReadTo count h rest r ∧ (buf.length = count → h.lastrd ≤ count → r.buf.length = count ∧ r.h.lastrd ≤ count) ∧
      (0 < h.rddone → h.lastrd < h.rddone + rest.length → r.h.lastrd < h.rddone + rest.length) := by
  induction answers generalizing h buf rest with
  | nil =>
    rw [io13Read] at hr
    split_ifs at hr with hlt
    cases hr
    exact ⟨⟨ha, rfl, .inl ⟨rfl, by simpa using hlt⟩⟩, fun hbuf hlast => ⟨hbuf, hlast⟩, fun _ hlast => hlast⟩
  | cons a answers ih =>
    obtain ⟨k, rfl⟩ := ha a (by simp)
    rw [io13Read] at hr
    split_ifs at hr with hlt
    · simp only at hr
      split_ifs at hr with hnil
      · cases hr
        have hrest : rest = [] := by
          have hmin : min (count - h.rddone) (k + 1) ≠ 0 := by omega
          simpa [List.take_eq_nil_iff, hmin] using hnil
        have hzero : (rest.take (min (count - h.rddone) (k + 1))).length = 0 := by rw [hnil, List.length_nil]
        exact ⟨⟨ha.tail, rfl, .inr ⟨rfl, hlt, hrest, hzero⟩⟩, fun hbuf _ => ⟨hbuf, by simp [hzero]⟩,
          fun hpos _ => by simp [hzero]; omega⟩
      · obtain ⟨⟨hparts, htotal, hends⟩, hbuf, hlast⟩ := ih ha.tail hr
        simp only [List.length_take, List.length_drop] at htotal hbuf hlast
        refine ⟨⟨hparts, by omega, hends⟩, fun hlen _ => hbuf ?_ (by omega), fun hpos _ => ?_⟩
        · rw [length_splice (by simp; omega), hlen]
        · omega
    · cases hr
      exact ⟨⟨ha, rfl, .inl ⟨rfl, by simpa using hlt⟩⟩, fun hbuf hlast => ⟨hbuf, hlast⟩, fun _ hlast => hlast⟩

theorem io13Read_idle (hge : count ≤ h.rddone) :
    io13Read count hard answers h buf rest = some ⟨.ok, h, buf, rest, answers⟩ := by
  cases answers <;> exact if_neg (by omega)

theorem io13Read_eof {k : ℕ} (hlt : h.rddone < count) : io13Read count hard (.part k :: answers) h buf [] =
      some ⟨.done, { h with lastrd := 0 }, buf, [], answers⟩ := by
  rw [io13Read, if_pos hlt]
  simp

theorem io13Read_whole {k : ℕ} (hzero : h.rddone = 0) (hlen : rest.length = count)
    (hpos : 0 < count) (hbuf : buf.length = count) (hk : count ≤ k + 1) :
    io13Read count hard (.part k :: answers) h buf rest =
      some ⟨.ok, { h with rddone := count, lastrd := count }, rest, [], answers⟩ := by
  have htake : rest.take (min (count - 0) (k + 1)) = rest := List.take_of_length_le (by omega)
  have hne : rest ≠ [] := List.ne_nil_of_length_pos (by omega)
  rw [io13Read, if_pos (by omega)]
  simp only [hzero, htake, if_neg hne, Nat.zero_add]
  rw [splice_zero (by omega), List.drop_length, hlen]
  exact io13Read_idle (by simp)

end Read

section Write
variable {count : ℕ} {hard : Bool} {answers : List Sys} {h : Io13} {buf file old : List UInt8} {pos : ℕ} {w : WrRun}

theorem io13Write_spec (ha : AllPart answers) (hbuf : count ≤ buf.length) (hle : h.wrdone ≤ count)
    (hpos : pos = h.wrdone) (hfile : file = copied buf old pos)
    (hw : io13Write buf count hard answers h file pos = some w) :
    AllPart w.answers ∧ w.ret = .ok ∧ w.h.wrdone = count ∧ w.file = copied buf old count := by
  induction answers generalizing h file pos with
  | nil =>
    rw [io13Write] at hw
    split_ifs at hw with hlt
    cases hw
    obtain rfl : pos = count := by omega
    exact ⟨ha, rfl, hpos.symm, hfile⟩
  | cons a answers ih =>
    obtain ⟨k, rfl⟩ := ha a (by simp)
    rw [io13Write] at hw
    split_ifs at hw with hlt
    · have hlen : ((buf.drop h.wrdone).take (min (count - h.wrdone) (k + 1))).length =
          min (count - h.wrdone) (k + 1) := by
        simp only [List.length_take, List.length_drop]
        omega
      have hne : (buf.drop h.wrdone).take (min (count - h.wrdone) (k + 1)) ≠ [] :=
        List.ne_nil_of_length_pos (by omega)
      simp only [if_neg hne, hlen] at hw
      refine ih ha.tail ?_ ?_ ?_ hw
      · simp only
        omega
      · simp only
        omega
      · rw [hfile, hpos, splice_copied (by omega)]
    · cases hw
      obtain rfl : pos = count := by omega
      exact ⟨ha, rfl, hpos.symm, hfile⟩

theorem exists_io13Write (ha : AllPart answers) (hbuf : count ≤ buf.length)
    (henough : count - h.wrdone ≤ answers.length) : ∃ w, io13Write buf count hard answers h file pos = some w := by
  induction answers generalizing h file pos with
  | nil => exact ⟨_, by rw [io13Write, if_neg (by simp at henough; omega)]⟩
  | cons a answers ih =>
    obtain ⟨k, rfl⟩ := ha a (by simp)
    rw [io13Write]
    split_ifs with hlt
    · simp only
      split_ifs with hnil
      · exact ⟨_, rfl⟩
      · refine ih ha.tail ?_
        simp only [List.length_cons, List.length_take, List.length_drop] at henough ⊢
        omega
    · exact ⟨_, rfl⟩

theorem io13Write_idle (hge : count ≤ h.wrdone) :
    io13Write buf count hard answers h file pos = some ⟨.ok, h, file, pos, answers⟩ := by
  cases answers <;> exact if_neg (by omega)

end Write

section Copy
variable {size bufsize fuel : ℕ} {s s' : CopyState} {ret : Ret}

/-- Nothing more will be written: the buffer counts as full and its last piece is written, or the end
of the file has been reached. -/
def Stuck (size bufsize : ℕ) (s : CopyState) : Prop :=
  s.outio.wrdone < size ∧ AllPart s.rd ∧ (bufsize ≤ s.inio.rddone ∧ s.inio.lastrd ≤ s.outio.wrdone ∨
      s.inio.rddone < bufsize ∧ s.rest = [])

theorem Stuck.round (h : Stuck size bufsize s) (hr : copyRound bufsize s = some (ret, s')) :
    ret = .ok ∧ Stuck size bufsize s' := by
  obtain ⟨hlt, hrd, ⟨hfull, hlast⟩ | ⟨hless, hrest⟩⟩ := h
  · simp only [copyRound, io13Read_idle hfull, bind_eq_bind, bind_some, true_or,
      if_true, io13Write_idle hlast, pure_def, some.injEq, Prod.mk.injEq] at hr
    obtain ⟨rfl, rfl⟩ := hr
    exact ⟨rfl, hlt, hrd, .inl ⟨hfull, hlast⟩⟩
  · cases hans : s.rd with
    | nil => simp [copyRound, hans, io13Read, hless] at hr
    | cons a answers =>
      rw [hans] at hrd
      obtain ⟨k, rfl⟩ := hrd a (by simp)
      simp only [copyRound, hans, hrest, io13Read_eof hless, bind_eq_bind, bind_some,
        or_true, true_or, if_true, io13Write_idle (Nat.zero_le _), pure_def,
        some.injEq, Prod.mk.injEq] at hr
      obtain ⟨rfl, rfl⟩ := hr
      exact ⟨rfl, hlt, hrd.tail, .inr ⟨hless, rfl⟩⟩

theorem Stuck.loop (h : Stuck size bufsize s) : copyLoop size bufsize fuel s = none := by
  induction fuel generalizing s with
  | zero => rfl
  | succ fuel ih =>
    rw [copyLoop, if_pos h.1]
    match hr : copyRound bufsize s with
    | none => rfl
    | some (ret, s') =>
      obtain ⟨rfl, h'⟩ := h.round hr
      exact ih h'

variable {buf source : List UInt8} {k : ℕ}

theorem lastrd_first {answers : List Sys} {r : RdRun} (hpos : 0 < source.length) (ha : AllPart answers)
    (hno : ¬(source.length = bufsize ∧ source.length ≤ k + 1))
    (hr : io13Read bufsize false (.part k :: answers) .hard buf source = some r) :
    r.ret = .ok ∧ bufsize ≤ r.h.rddone ∧ r.h.lastrd < source.length ∨
      r.ret = .done ∧ r.h.rddone < bufsize ∧ r.rest = [] ∧ r.h.lastrd = 0 := by
  obtain ⟨-, htotal, ⟨hok, hfull⟩ | hdone⟩ := (io13Read_spec (allPart_cons ha) hr).1
  · refine .inl ⟨hok, hfull, ?_⟩
    have hle : bufsize ≤ source.length := by
      simp only [Io13.hard, Nat.zero_add] at htotal
      omega
    by_cases hzero : bufsize = 0
    · rw [io13Read_idle (by omega)] at hr
      cases hr
      exact hpos
    · rw [io13Read, if_pos (by simp only [Io13.hard]; omega)] at hr
      have hlen : (source.take (min (bufsize - Io13.hard.rddone) (k + 1))).length = min bufsize (k + 1) := by
        simp only [Io13.hard, List.length_take]
        omega
      have hne : source.take (min (bufsize - Io13.hard.rddone) (k + 1)) ≠ [] :=
        List.ne_nil_of_length_pos (by omega)
      simp only [if_neg hne, hlen] at hr
      have hlast := (io13Read_spec ha hr).2.2
      simp only [Io13.hard, List.length_drop] at hlast
      omega
  · exact .inr hdone

variable {old target : List UInt8}

/-- The first round on a file that is not empty: the loop is stuck after it, unless the first `read`
gave the whole file, as large as the buffer. -/
theorem copyRound_first {rd wr : List Sys}
    (hpos : 0 < source.length) (hbuf : buf.length = bufsize) (hrd : AllPart rd) (hwr : AllPart wr)
    (hr : copyRound bufsize (.start buf source old (.part k :: rd) wr) = some (ret, s')) :
    ret = .ok ∧ if source.length = bufsize ∧ source.length ≤ k + 1 then
        s'.outio.wrdone = source.length ∧ s'.file = copied source old source.length
      else Stuck source.length bufsize s' := by
  simp only [copyRound, CopyState.start, bind_eq_bind, bind_eq_some_iff] at hr
  obtain ⟨r, hread, hr⟩ := hr
  split_ifs with hwhole
  · rw [io13Read_whole rfl hwhole.1 (by omega) hbuf (by omega)] at hread
    cases hread
    simp only [true_or, if_true, bind_eq_some_iff] at hr
    obtain ⟨w, hw, hr⟩ := hr
    obtain ⟨-, hok, hdone, hfile⟩ := io13Write_spec hwr (Nat.le_of_eq hwhole.1.symm)
      (Nat.zero_le bufsize) rfl (show old = copied source old 0 from copied_zero.symm) hw
    simp only [hok, true_or, if_true, pure_def, some.injEq, Prod.mk.injEq] at hr
    obtain ⟨rfl, rfl⟩ := hr
    exact ⟨rfl, by rw [hdone, hwhole.1], by rw [hfile, hwhole.1]⟩
  · have hall : AllPart (.part k :: rd) := allPart_cons hrd
    have hends := lastrd_first hpos hrd hwhole hread
    obtain ⟨hread', hkeeps, -⟩ := io13Read_spec hall hread
    obtain ⟨hlen, hlast⟩ := hkeeps hbuf (Nat.zero_le bufsize)
    have hcont : r.ret = .ok ∨ r.ret = .done := hends.imp (·.1) (·.1)
    simp only [if_pos hcont, bind_eq_some_iff] at hr
    obtain ⟨w, hw, hr⟩ := hr
    obtain ⟨-, hok, hdone, -⟩ := io13Write_spec hwr (by rw [hlen]; exact hlast) (Nat.zero_le _) rfl
      (show old = copied r.buf old 0 from copied_zero.symm) hw
    simp only [hok, true_or, if_true, pure_def, some.injEq, Prod.mk.injEq] at hr
    obtain ⟨rfl, rfl⟩ := hr
    refine ⟨rfl, ?_, hread'.answers, ?_⟩
    · simp only [hdone]
      rcases hends with ⟨-, -, hlt⟩ | ⟨-, -, -, hzero⟩
      · exact hlt
      · omega
    · simp only [hdone]
      rcases hends with ⟨-, hfull, -⟩ | ⟨-, hless, hrest, -⟩
      · exact .inl ⟨hfull, Nat.le_refl _⟩
      · exact .inr ⟨hless, hrest⟩

def parts (count : ℕ → ℕ) (n : ℕ) : List Sys := (List.range n).map (.part ∘ count)

theorem allPart_parts (count : ℕ → ℕ) (n : ℕ) : AllPart (parts count n) := by
  intro a ha
  obtain ⟨i, -, rfl⟩ := List.mem_map.1 ha
  exact ⟨_, rfl⟩

theorem parts_succ (count : ℕ → ℕ) (n : ℕ) :
    parts count (n + 1) = .part (count 0) :: parts (fun i => count (i + 1)) n := by
  simp [parts, List.range_succ_eq_map, Function.comp_def]

theorem exists_copyRound {wr : List Sys} (old : List UInt8) (rd : List Sys)
    (hpos : 0 < source.length) (hbuf : buf.length = bufsize) (hwhole : source.length = bufsize)
    (hk : source.length ≤ k + 1) (hwr : AllPart wr) (henough : source.length ≤ wr.length) :
    ∃ r, copyRound bufsize (.start buf source old (.part k :: rd) wr) = some r := by
  have hread : io13Read bufsize false (.part k :: rd) .hard buf source = some
      ⟨.ok, { Io13.hard with rddone := bufsize, lastrd := bufsize }, source, [], rd⟩ :=
    io13Read_whole rfl hwhole (by omega) hbuf (by omega)
  obtain ⟨w, hw⟩ : ∃ w, io13Write source bufsize false wr .hard old 0 = some w :=
    exists_io13Write hwr (Nat.le_of_eq hwhole.symm) (by omega)
  simp only [copyRound, CopyState.start, hread, bind_eq_bind, bind_some, true_or, if_true, hw]
  split_ifs <;> exact ⟨_, rfl⟩

/-- A file that is not empty, and not as large as the buffer and read at once, is copied forever. -/
theorem copyLoop_none (source old : List UInt8) (rd wr : ℕ → ℕ) (hbuf : buf.length = bufsize)
    (hpos : 0 < source.length) (hno : ¬(source.length = bufsize ∧ source.length ≤ rd 0 + 1)) (n : ℕ) :
    copyLoop source.length bufsize n (.start buf source old (parts rd n) (parts wr n)) = none := by
  cases n with
  | zero => rfl
  | succ n =>
    rw [copyLoop, if_pos (by exact hpos), parts_succ]
    cases hr : copyRound bufsize (.start buf source old
        (.part (rd 0) :: parts (fun i => rd (i + 1)) n) (parts wr (n + 1))) with
    | none => rfl
    | some r =>
      obtain ⟨ret, s'⟩ := r
      obtain ⟨rfl, hnext⟩ := copyRound_first hpos hbuf (allPart_parts _ n) (allPart_parts _ _) hr
      rw [if_neg hno] at hnext
      exact hnext.loop

variable {rd : ℕ → ℕ}

section
variable {wr : ℕ → ℕ} {n : ℕ} (hbuf : buf.length = bufsize) (hpos : 0 < source.length)
  (hwhole : source.length = bufsize ∧ source.length ≤ rd 0 + 1)
include hbuf hpos hwhole

theorem copyRound_whole {r : Ret × CopyState}
    (hr : copyRound bufsize (.start buf source old (parts rd (n + 1)) (parts wr (n + 1))) = some r) :
    r.1 = .ok ∧ r.2.outio.wrdone = source.length ∧ r.2.file = copied source old source.length := by
  rw [parts_succ] at hr
  have hfirst := copyRound_first hpos hbuf (allPart_parts _ n) (allPart_parts _ _) hr
  rwa [if_pos hwhole] at hfirst

theorem file_of_copyLoop_whole
    (hs : copyLoop source.length bufsize n (.start buf source old (parts rd n) (parts wr n)) = some (.ok, s)) :
    s.file = copied source old source.length := by
  cases n with
  | zero => cases hs
  | succ n =>
    rw [copyLoop, if_pos (by exact hpos)] at hs
    cases hr : copyRound bufsize (.start buf source old (parts rd (n + 1)) (parts wr (n + 1))) with
    | none => simp [hr] at hs
    | some r =>
      obtain ⟨ret, s'⟩ := r
      obtain ⟨rfl, hdone, hfile⟩ := copyRound_whole hbuf hpos hwhole hr
      simp only [hr] at hs
      cases n with
      | zero => cases hs
      | succ n =>
        simp only at hdone
        rw [copyLoop, if_neg (by omega)] at hs
        obtain rfl := (Prod.mk.inj (some.inj hs)).2
        exact hfile

end

/-- The loop ends exactly if the file is empty, or is as large as the buffer and read at once. -/
theorem copyLoop_iff (wr : ℕ → ℕ) (hbuf : buf.length = bufsize) :
    (∃ n s, copyLoop source.length bufsize n (.start buf source old (parts rd n) (parts wr n)) =
        some (.ok, s) ∧ s.file = target) ↔ (source.length = 0 ∨ source.length = bufsize ∧ source.length ≤ rd 0 + 1) ∧
        target = copied source old source.length := by
  by_cases hzero : source.length = 0
  · constructor
    · rintro ⟨n, s, hs, rfl⟩
      cases n with
      | zero => cases hs
      | succ n =>
        rw [copyLoop, if_neg (by simp [hzero])] at hs
        obtain rfl := (Prod.mk.inj (some.inj hs)).2
        exact ⟨.inl hzero, by simp [hzero, CopyState.start]⟩
    · rintro ⟨-, rfl⟩
      exact ⟨1, _, by rw [copyLoop, if_neg (by simp [hzero])], by simp [hzero, CopyState.start]⟩
  have hpos : 0 < source.length := Nat.pos_of_ne_zero hzero
  by_cases hwhole : source.length = bufsize ∧ source.length ≤ rd 0 + 1
  · constructor
    · rintro ⟨n, s, hs, rfl⟩
      exact ⟨.inr hwhole, file_of_copyLoop_whole hbuf hpos hwhole hs⟩
    · rintro ⟨-, rfl⟩
      -- two rounds are enough
      obtain ⟨⟨ret, s'⟩, hr⟩ := exists_copyRound old
        (parts (fun i => rd (i + 1)) (source.length + 1)) hpos hbuf hwhole.1 hwhole.2
        (allPart_parts wr (source.length + 2)) (by simp [parts])
      rw [← parts_succ] at hr
      obtain ⟨rfl, hdone, hfile⟩ := copyRound_whole hbuf hpos hwhole hr
      simp only at hdone
      refine ⟨source.length + 2, s', ?_, hfile⟩
      rw [copyLoop, if_pos (by exact hpos), hr]
      simp only
      rw [copyLoop, if_neg (by omega)]
  · simp [copyLoop_none _ _ _ _ hbuf hpos hwhole, hzero, hwhole]

end Copy

theorem copied_eq_iff {source old : List UInt8} :
    source = copied source old source.length ↔ old.length ≤ source.length := by
  simp [copied_length]

def Copies (source : List UInt8) (run : ℕ → Option CopyRun) : Prop :=
  ∃ n kept, run n = some ⟨.ok, source, kept⟩

section Main
variable (m : Alloc) (rd wr : ℕ → ℕ) (target : Option (List UInt8)) (source : List UInt8) (copyflags : CopyFlags)

theorem copies_iff (extbuf : List UInt8) :
    Copies source (fun n => io13CopyFile2 m n (parts rd n) (parts wr n) target source extbuf copyflags) ↔
      (extbuf = [] → (m.malloc (copyBufSize source.length 0)).isSome = true) ∧
      (source.length = 0 ∨ source.length = copyBufSize source.length extbuf.length ∧
        source.length ≤ rd 0 + 1) ∧ (target.getD []).length ≤ source.length := by
  -- with a buffer, the loop decides
  have hloop : ∀ buf : List UInt8, buf.length = copyBufSize source.length extbuf.length →
      (if extbuf.length = 0 then m.malloc (copyBufSize source.length extbuf.length) else some extbuf) = some buf →
      (Copies source (fun n => io13CopyFile2 m n (parts rd n) (parts wr n) target source extbuf copyflags) ↔
        (source.length = 0 ∨ source.length = copyBufSize source.length extbuf.length ∧
          source.length ≤ rd 0 + 1) ∧ (target.getD []).length ≤ source.length) := by
    intro buf hlen hbuf
    rw [← copied_eq_iff, ← copyLoop_iff wr hlen]
    simp only [Copies, io13CopyFile2, hbuf, map_eq_some_iff, Prod.exists, CopyRun.mk.injEq]
    constructor
    · rintro ⟨n, kept, ret, s, hs, rfl, hfile, -⟩
      exact ⟨n, s, hs, hfile⟩
    · rintro ⟨n, s, hs, hfile⟩
      exact ⟨n, _, .ok, s, hs, rfl, hfile, rfl⟩
  by_cases hext : extbuf = []
  · subst hext
    cases hm : m.malloc (copyBufSize source.length 0) with
    | none => simp [Copies, io13CopyFile2, hm]
    | some buf =>
      rw [hloop buf (m.length_malloc _ _ hm) (by simpa using hm)]
      simp
  · have hlen : extbuf.length ≠ 0 := by simpa using hext
    rw [hloop extbuf (by simp [copyBufSize, hlen]) (if_neg hlen)]
    simp [hext]

/-- With system calls that all succeed, a copy ends with the target equal to the source if and only
if the source is empty, or is as large as the buffer and read by one `read`, and the target was not
longer before. -/
theorem io13CopyFile_iff (extbuf : List UInt8) (buf : Vector UInt8 copyFileBufSize) : (Copies source
      (fun n => io13CopyFile2 m n (parts rd n) (parts wr n) target source extbuf copyflags) ↔
      (extbuf = [] → (m.malloc (copyBufSize source.length 0)).isSome = true) ∧
      (source.length = 0 ∨ source.length = copyBufSize source.length extbuf.length ∧
        source.length ≤ rd 0 + 1) ∧ (target.getD []).length ≤ source.length) ∧ (Copies source
      (fun n => io13CopyFile m n (parts rd n) (parts wr n) target source buf copyflags) ↔
      (source.length = 0 ∨ source.length = copyFileBufSize ∧ source.length ≤ rd 0 + 1) ∧
      (target.getD []).length ≤ source.length) := by
  refine ⟨copies_iff m rd wr target source copyflags extbuf, ?_⟩
  have hlen : buf.toList.length = copyFileBufSize := buf.length_toList
  have hne : buf.toList ≠ [] := List.ne_nil_of_length_pos (by rw [hlen]; decide)
  have h := copies_iff m rd wr target source copyflags buf.toList
  rw [hlen] at h
  exact h.trans ⟨fun h => h.2, fun h => ⟨fun hnil => absurd hnil hne, h⟩⟩

end Main

/-- A file of one byte is copied forever, whatever the buffer on the stack holds. -/
theorem one_byte_forever (buf : Vector UInt8 copyFileBufSize) : ¬Copies [7]
    (fun n => io13CopyFile ⟨fun _ => none, by simp⟩ n (parts (fun _ => 0) n) (parts (fun _ => 0) n)
      none [7] buf ⟨true, false⟩) := by
  rintro ⟨n, kept, hrun⟩
  have hlen : buf.toList.length = copyFileBufSize := buf.length_toList
  have hsize : copyFileBufSize ≠ 0 := by decide
  have hbuf : copyBufSize [(7 : UInt8)].length copyFileBufSize = copyFileBufSize := if_neg hsize
  have hloop := copyLoop_none [7] [] (fun _ => 0) (fun _ => 0) hlen (by decide) (fun h => absurd h.1 (by decide)) n
  simp only [io13CopyFile, io13CopyFile2, hlen, hbuf, if_neg hsize, getD_none, hloop, map_none, reduceCtorEq] at hrun

theorem not_copies_one_byte : ¬Copies [7]
    (fun n => io13CopyFile ⟨fun _ => none, by simp⟩ n (parts (fun _ => 0) n) (parts (fun _ => 0) n)
      none [7] (Vector.replicate copyFileBufSize 0) ⟨true, false⟩) :=
  one_byte_forever _

end Prj.Lib13
