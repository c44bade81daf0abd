import Prj.Jlib.Store

/-! Which data pointers a chain is made of. -/
namespace Prj.Jlib
open Prj.Base List

section Scan
variable {bent n : ℕ} {free : ℕ → List ℕ} {bs : List ℕ} {nent nent' : ℕ → ℕ} {b : ℕ}

def available (bent : ℕ) (free : ℕ → List ℕ) (nent : ℕ → ℕ) (bs : List ℕ) : List Loc :=
  bs.flatMap fun b => if nent b < bent then (free b).map (b, ·) else []

theorem available_congr (h : ∀ b ∈ bs, nent' b = nent b) : available bent free nent' bs = available bent free nent bs :=
  flatMap_congr fun b hb => by rw [h b hb]

theorem available_cons : available bent free nent (b :: bs) =
      (if nent b < bent then (free b).map (b, ·) else []) ++ available bent free nent bs := rfl

theorem available_eq_nil_iff : available bent free nent bs = [] ↔ ∀ b ∈ bs, nent b < bent → free b = [] := by
  rw [available, flatMap_eq_nil_iff]
  refine forall₂_congr fun b _ => ?_
  split_ifs with h <;> simp [h]

theorem nodup_available (hfree : ∀ b, (free b).Nodup) (hbs : bs.Nodup) : (available bent free nent bs).Nodup := by
  rw [available, nodup_flatMap]
  refine ⟨fun b _ => ?_, hbs.imp fun {b b'} hne l hl hl' => hne ?_⟩
  · split_ifs
    · exact (hfree b).map fun i j hij => (Prod.mk.inj hij).2
    · exact nodup_nil
  · have hfst : ∀ c, l ∈ (if nent c < bent then (free c).map (c, ·) else []) → l.1 = c := by
      intro c hc
      split_ifs at hc with hlt
      · obtain ⟨i, _, rfl⟩ := mem_map.mp hc
        rfl
      · simp at hc
    exact (hfst b hl).symm.trans (hfst b' hl')

theorem mem_available {l : Loc} (h : l ∈ available bent free nent bs) :
    l.1 ∈ bs ∧ nent l.1 < bent ∧ l.2 ∈ free l.1 := by
  obtain ⟨b, hb, hl⟩ := mem_flatMap.mp h
  split_ifs at hl with hlt
  · obtain ⟨i, hi, rfl⟩ := mem_map.mp hl
    exact ⟨hb, hlt, hi⟩
  · simp at hl

theorem scanPtrs_taken (hbs : bs.Nodup) : (scanPtrs bent free bs n nent).1 = (available bent free nent bs).take n ∧
      (scanPtrs bent free bs n nent).2.1 = n - (available bent free nent bs).length := by
  induction bs generalizing n nent with
  | nil => simp [scanPtrs, available]
  | cons b bs ih =>
    rw [nodup_cons] at hbs
    rw [scanPtrs, available_cons]
    split_ifs with hlt
    · have hcongr : ∀ k, ∀ b' ∈ bs, Function.update nent b k b' = nent b' := by
        intro k b' hb'
        exact Function.update_of_ne (ne_of_mem_of_not_mem hb' hbs.1) _ _
      simp only [ih hbs.2, available_congr (hcongr _), take_append, map_take, length_map, length_take, length_append]
      constructor
      · congr 2
        omega
      · omega
    · exact ih hbs.2

theorem scanPtrs_nent (hbs : bs.Nodup) (hn : (available bent free nent bs).length ≤ n) :
    (scanPtrs bent free bs n nent).2.2 b = if b ∈ bs ∧ nent b < bent then nent b + (free b).length else nent b := by
  induction bs generalizing n nent with
  | nil => simp [scanPtrs]
  | cons b' bs ih =>
    rw [nodup_cons] at hbs
    rw [available_cons, length_append] at hn
    rw [scanPtrs]
    by_cases hlt : nent b' < bent
    · rw [if_pos hlt, length_map] at hn
      rw [if_pos hlt, take_of_length_le (by omega)]
      have hcongr : ∀ b ∈ bs, Function.update nent b' (nent b' + (free b').length) b = nent b := by
        intro b hb
        exact Function.update_of_ne (ne_of_mem_of_not_mem hb hbs.1) _ _
      rw [ih hbs.2 (by rw [available_congr hcongr]; omega)]
      by_cases hb : b = b'
      · rw [hb, Function.update_self, if_neg fun h => hbs.1 h.1, if_pos ⟨mem_cons_self, hlt⟩]
      · simp only [Function.update_of_ne hb, mem_cons, hb, false_or]
    · rw [if_neg hlt] at hn ⊢
      rw [ih hbs.2 (by simpa using hn)]
      by_cases hb : b = b'
      · rw [hb, if_neg fun h => hlt h.2, if_neg fun h => hlt h.2]
      · simp only [mem_cons, hb, false_or]

end Scan

section Chain
variable {env : Env} {g : Geometry} {s s' s'' : Store} {n fuel : ℕ} {ls : List Loc} {b : ℕ}

/-- The data pointers a pass over the blocks of the store comes by. -/
def Store.available (g : Geometry) (s : Store) : List Loc :=
  Jlib.available g.dptrBent (freeEntries g s.entry) s.ptrNent s.ptrBids

/-- `s'` has the data of `s` and the entries of its blocks of data pointers. -/
structure Extends (s s' : Store) : Prop where
  dataBids : s'.dataBids = s.dataBids
  nful : s'.nful = s.nful
  data : s'.data = s.data
  ptrBids : ∀ b ∈ s.ptrBids, b ∈ s'.ptrBids
  entry : ∀ l : Loc, l.1 ∈ s.ptrBids → s'.entry l = s.entry l

theorem Extends.trans (h : Extends s s') (h' : Extends s' s'') : Extends s s'' :=
  ⟨h'.dataBids.trans h.dataBids, h'.nful.trans h.nful, h'.data.trans h.data,
    fun b hb => h'.ptrBids b (h.ptrBids b hb),
    fun l hl => (h'.entry l (h.ptrBids _ hl)).trans (h.entry l hl)⟩

theorem extends_createDataPtr : Extends s (createDataPtr env g s) := by
  refine ⟨rfl, rfl, rfl, fun b hb => mem_append_left _ hb, fun l hl => if_neg fun heq => ?_⟩
  exact freshBid_notMem_ptrBids env s (heq ▸ hl)

theorem isSome_of_mem_available {l : Loc} (h : l ∈ s.available g) : (s.entry l).isSome := by
  have hfree := (mem_available h).2.2
  rw [freeEntries] at hfree
  cases hl : s.entry (l.1, l.2) with
  | none => simp [hl] at hfree
  | some nd => rfl

def Store.scanned (g : Geometry) (s : Store) (n : ℕ) : Store :=
  { s with
    ptrNent := (scanPtrs g.dptrBent (freeEntries g s.entry) s.ptrBids n s.ptrNent).2.2 }

theorem takePtrs_succ : takePtrs env g (fuel + 1) s n =
      if n ≤ (s.available g).length then some (s.scanned g n, (s.available g).take n)
      else (takePtrs env g fuel (createDataPtr env g (s.scanned g n))
        (n - (s.available g).length)).map fun q => (q.1, s.available g ++ q.2) := by
  have htaken : (scanPtrs g.dptrBent (freeEntries g s.entry) s.ptrBids n s.ptrNent).1 =
      (s.available g).take n := (scanPtrs_taken s.ptrBids_nodup).1
  have hleft : (scanPtrs g.dptrBent (freeEntries g s.entry) s.ptrBids n s.ptrNent).2.1 =
      n - (s.available g).length := (scanPtrs_taken s.ptrBids_nodup).2
  simp only [takePtrs, htaken, hleft, Nat.sub_eq_zero_iff_le]
  split_ifs with hn
  · rfl
  · rw [take_of_length_le (Nat.le_of_lt (Nat.lt_of_not_le hn))]
    rfl

/-- The counters of the blocks tell which entries have been taken. -/
def Counted (g : Geometry) (s : Store) : Prop :=
  ∀ b ∈ s.ptrBids, s.ptrNent b < g.dptrBent → freeEntries g s.entry b ≠ [] →
    g.dptrBent ≤ s.ptrNent b + (freeEntries g s.entry b).length

theorem available_scanned_of_counted (hc : Counted g s) (hn : (s.available g).length ≤ n) :
    (s.scanned g n).available g = [] := by
  rw [Store.available, available_eq_nil_iff]
  intro b hb hlt
  replace hlt : (scanPtrs g.dptrBent (freeEntries g s.entry) s.ptrBids n s.ptrNent).2.2 b < g.dptrBent := hlt
  rw [scanPtrs_nent s.ptrBids_nodup hn] at hlt
  by_contra hne
  split_ifs at hlt with h
  · exact absurd (hc b hb h.2 hne) (by omega)
  · exact h ⟨hb, hlt⟩

theorem freeEntries_createDataPtr_self :
    freeEntries g (createDataPtr env g s).entry (freshBid env s) = List.range g.dptrBent := by
  rw [freeEntries, filter_eq_self]
  intro i hi
  simp [createDataPtr, mem_range.mp hi]

theorem freeEntries_createDataPtr (hb : b ∈ s.ptrBids) :
    freeEntries g (createDataPtr env g s).entry b = freeEntries g s.entry b := by
  refine filter_congr fun i _ => ?_
  rw [extends_createDataPtr.entry (b, i) hb]

theorem ptrNent_createDataPtr (hb : b ∈ s.ptrBids) : (createDataPtr env g s).ptrNent b = s.ptrNent b :=
  Function.update_of_ne (ne_of_mem_of_not_mem hb (freshBid_notMem_ptrBids env s)) _ _

theorem available_createDataPtr : (createDataPtr env g s).available g = s.available g ++
      if env.freshNent < g.dptrBent then (List.range g.dptrBent).map (freshBid env s, ·) else [] := by
  have hself : (createDataPtr env g s).ptrNent (freshBid env s) = env.freshNent :=
    Function.update_self _ _ _
  have hold : available g.dptrBent (freeEntries g (createDataPtr env g s).entry)
      (createDataPtr env g s).ptrNent s.ptrBids = s.available g :=
    flatMap_congr fun b hb => by
      rw [freeEntries_createDataPtr hb, ptrNent_createDataPtr hb]
  calc (createDataPtr env g s).available g = available g.dptrBent (freeEntries g (createDataPtr env g s).entry)
          (createDataPtr env g s).ptrNent (s.ptrBids ++ [freshBid env s]) := rfl
    _ = _ := by
      rw [available, flatMap_append, ← available, hold, ← available, available_cons, freeEntries_createDataPtr_self,
        hself]
      simp [available]

theorem counted_createDataPtr (hnil : s.available g = []) : Counted g (createDataPtr env g s) := by
  intro b hb hlt hfree
  rcases mem_append.mp hb with hold | hnew
  · rw [freeEntries_createDataPtr hold] at hfree
    rw [ptrNent_createDataPtr hold] at hlt
    exact absurd (available_eq_nil_iff.mp hnil b hold hlt) hfree
  · rw [mem_singleton.mp hnew, freeEntries_createDataPtr_self, length_range]
    omega

theorem nodup_available_store : (s.available g).Nodup :=
  nodup_available (fun _ => nodup_range.filter _) s.ptrBids_nodup

theorem extends_scanned : Extends s (s.scanned g n) :=
  ⟨rfl, rfl, rfl, fun _ => id, fun _ _ => rfl⟩

/-- There are data pointers for `needed` runs of slots. -/
def PtrsFor (env : Env) (g : Geometry) (s : Store) (needed : ℕ) : Prop :=
  needed ≤ (s.available g).length ∨ env.freshNent < g.dptrBent ∧ Counted g s

theorem PtrsFor.exists_takePtrs (h : PtrsFor env g s n) (hpos : 0 < fuel) (hfuel : n < fuel + (s.available g).length) :
    ∃ s' ls, takePtrs env g fuel s n = some (s', ls) ∧ ls.length = n ∧ ls.Nodup ∧
      (∀ l ∈ ls, (l ∈ s.available g ∨ l.1 ∉ s.ptrBids) ∧ l.1 ∈ s'.ptrBids ∧ (s'.entry l).isSome) ∧ Extends s s' := by
  induction fuel generalizing s n with
  | zero => omega
  | succ fuel ih =>
    rw [takePtrs_succ]
    by_cases hfit : n ≤ (s.available g).length
    · rw [if_pos hfit]
      refine ⟨_, _, rfl, by rw [length_take]; omega, nodup_available_store.sublist (take_sublist _ _), fun l hl => ?_,
        extends_scanned⟩
      have hmem := mem_of_mem_take hl
      exact ⟨.inl hmem, (mem_available hmem).1, isSome_of_mem_available (s := s) hmem⟩
    · obtain ⟨hfresh, hcounted⟩ := h.resolve_left hfit
      have hnil := available_scanned_of_counted (n := n) hcounted (by omega)
      have havail := @available_createDataPtr env g (s.scanned g n)
      rw [hnil, if_pos hfresh, nil_append] at havail
      obtain ⟨s', ls, htake, hls, hnodup, hmem, hext⟩ := ih (s := createDataPtr env g (s.scanned g n))
        (n := n - (s.available g).length) (.inr ⟨hfresh, counted_createDataPtr hnil⟩) (by omega)
        (by simp only [havail, length_map, length_range]; omega)
      have hexts : Extends s s' := (extends_scanned (n := n)).trans (extends_createDataPtr.trans hext)
      have hnew : ∀ l ∈ ls, l.1 ∉ s.ptrBids := by
        intro l hl hold
        rcases (hmem l hl).1 with hfirst | hlater
        · rw [havail] at hfirst
          obtain ⟨i, _, rfl⟩ := mem_map.mp hfirst
          exact freshBid_notMem_ptrBids env (s.scanned g n) hold
        · exact hlater (mem_append_left _ hold)
      rw [if_neg hfit, htake]
      refine ⟨s', _, rfl, by rw [length_append, hls]; omega, ?_, fun l hl => ?_, hexts⟩
      · rw [nodup_append]
        refine ⟨nodup_available_store, hnodup, fun l hl l' hl' heq => hnew l' hl' ?_⟩
        exact heq ▸ (mem_available hl).1
      · rcases mem_append.mp hl with hl | hl
        · have hold := (mem_available hl).1
          refine ⟨.inl hl, hexts.ptrBids _ hold, ?_⟩
          rw [hexts.entry l hold]
          exact isSome_of_mem_available hl
        · exact ⟨.inr (hnew l hl), (hmem l hl).2⟩

/-- Without free entries, and with new blocks that count as full, the passes go on for ever. -/
theorem takePtrs_eq_none (hfresh : g.dptrBent ≤ env.freshNent) (hnil : s.available g = [])
    (hn : 0 < n) : takePtrs env g fuel s n = none := by
  induction fuel generalizing s with
  | zero => rfl
  | succ fuel ih =>
    have hcounted : Counted g s := fun b hb hlt hfree =>
      absurd (available_eq_nil_iff.mp hnil b hb hlt) hfree
    have hnil' : (createDataPtr env g (s.scanned g n)).available g = [] := by
      rw [available_createDataPtr, if_neg (by omega), append_nil]
      exact available_scanned_of_counted hcounted (by simp [hnil])
    rw [takePtrs_succ, hnil, length_nil, if_neg (by omega), Nat.sub_zero, ih hnil']
    rfl

theorem mem_of_takePtrs {l : Loc} (h : takePtrs env g fuel s n = some (s', ls)) (hn : 0 < n)
    (hl : l ∈ (s.available g).head?) : l ∈ ls := by
  obtain ⟨rest, hrest⟩ : ∃ rest, s.available g = l :: rest := head?_eq_some_iff.mp hl
  cases fuel with
  | zero => simp [takePtrs] at h
  | succ fuel =>
    rw [takePtrs_succ, hrest] at h
    split_ifs at h
    · cases h
      obtain ⟨n, rfl⟩ : ∃ k, n = k + 1 := ⟨n - 1, by omega⟩
      exact mem_cons_self
    · obtain ⟨q, _, hq⟩ := Option.map_eq_some_iff.mp h
      cases hq
      exact mem_append_left _ mem_cons_self

theorem available_scanned_subset (hn : (s.available g).length ≤ n) : (s.scanned g n).available g ⊆ s.available g := by
  intro l hl
  obtain ⟨hb, hlt, hfree⟩ := mem_available hl
  replace hlt : (scanPtrs g.dptrBent (freeEntries g s.entry) s.ptrBids n s.ptrNent).2.2 l.1 < g.dptrBent := hlt
  rw [scanPtrs_nent s.ptrBids_nodup hn] at hlt
  refine mem_flatMap.mpr ⟨l.1, hb, ?_⟩
  rw [if_pos (by split_ifs at hlt <;> omega)]
  exact mem_map.mpr ⟨l.2, hfree, rfl⟩

theorem counted_of_available_scanned (hn : (s.available g).length ≤ n)
    (hnil : (s.scanned g n).available g = []) : Counted g s := by
  intro b hb hlt hfree
  by_contra hfew
  refine hfree (available_eq_nil_iff.mp hnil b hb ?_)
  change (scanPtrs g.dptrBent (freeEntries g s.entry) s.ptrBids n s.ptrNent).2.2 b < g.dptrBent
  rw [scanPtrs_nent s.ptrBids_nodup hn, if_pos ⟨hb, hlt⟩]
  omega

theorem ptrsFor_of_nodup (h : takePtrs env g fuel s n = some (s', ls)) (hnodup : ls.Nodup) : PtrsFor env g s n := by
  cases fuel with
  | zero => simp [takePtrs] at h
  | succ fuel =>
    rw [takePtrs_succ] at h
    split_ifs at h with hfit
    · exact .inl hfit
    · obtain ⟨⟨s2, ls'⟩, htake, hq⟩ := Option.map_eq_some_iff.mp h
      cases hq
      have hnil : (s.scanned g n).available g = [] := by
        cases havail : (s.scanned g n).available g with
        | nil => rfl
        | cons l rest =>
          have hfirst : l ∈ s.available g :=
            available_scanned_subset (by omega) (havail ▸ mem_cons_self)
          have hagain : l ∈ ls' := by
            refine mem_of_takePtrs htake (by omega) ?_
            rw [available_createDataPtr, havail]
            rfl
          exact absurd rfl ((nodup_append.mp hnodup).2.2 l hfirst l hagain)
      refine .inr ⟨?_, counted_of_available_scanned (by omega) hnil⟩
      by_contra hfresh
      rw [takePtrs_eq_none (Nat.le_of_not_lt hfresh)
        (by rw [available_createDataPtr, hnil, if_neg hfresh, nil_append]) (by omega)] at htake
      simp at htake

end Chain
end Prj.Jlib
