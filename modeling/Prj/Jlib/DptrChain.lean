import Prj.Jlib.Pointers

/-! Chains of data pointers: how they are built, and loaded from the links in the file (`_jdb_create_dptr_chain` and
`_jdb_load_dptr_chain` in `jlib/src/jdb_data_ptr.c`). -/
namespace Prj.Jlib
open Prj.Base List Option

variable {env : Env} {g : Geometry} {s s' : Store} {l : Loc} {next : Option Loc} {ls : List Loc} {bs : List ℕ}
  {fuel : ℕ}

/-- The links of the file lead along `ls`, all of them entries of the blocks, and end there. -/
def Walk (s : Store) (ls : List Loc) : Prop := Chain s.link ls.head? ls ∧ ∀ l ∈ ls, l.1 ∈ s.ptrBids ∧ (s.entry l).isSome

theorem walk_nil : Walk s [] := ⟨rfl, by simp⟩

theorem walk_cons : Walk s (l :: ls) ↔ s.link l = ls.head? ∧ l.1 ∈ s.ptrBids ∧ (s.entry l).isSome ∧ Walk s ls := by
  simp only [Walk, head?_cons, Prj.Base.chain_cons, true_and, forall_mem_cons]
  constructor
  · rintro ⟨hchain, ⟨hb, hl⟩, hls⟩
    have hlink : s.link l = ls.head? := by
      cases ls with
      | nil => exact hchain
      | cons => exact hchain.1
    exact ⟨hlink, hb, hl, hlink ▸ hchain, hls⟩
  · rintro ⟨hlink, hb, hl, hchain, hls⟩
    exact ⟨hlink ▸ hchain, ⟨hb, hl⟩, hls⟩

theorem exists_loadPass (h : Walk s ls) (bs : List ℕ) : ∃ taken rest, ls = taken ++ rest ∧ Walk s rest ∧
    loadPass s bs ls.head? = some (taken, rest.head?) ∧ ∀ l ∈ ls.head?, l.1 ∈ bs → taken ≠ [] := by
  induction bs generalizing ls with
  | nil => exact ⟨[], ls, rfl, h, rfl, by simp⟩
  | cons b bs ih =>
    cases hl : ls.head?.filter (·.1 = b) with
    | none =>
      obtain ⟨taken, rest, heq, hrest, hpass, htaken⟩ := ih h
      refine ⟨taken, rest, heq, hrest, by rw [loadPass, hl, hpass], fun l hmem hb => ?_⟩
      refine htaken l hmem ((mem_cons.1 hb).resolve_left fun heq => ?_)
      simpa [heq] using filter_eq_none_iff.1 hl l hmem
    | some l =>
      obtain ⟨hhead, -⟩ := filter_eq_some_iff.1 hl
      obtain ⟨ls, rfl⟩ := head?_eq_some_iff.1 hhead
      obtain ⟨hlink, -, hentry, hls⟩ := walk_cons.1 h
      obtain ⟨nd, hnd⟩ := isSome_iff_exists.1 hentry
      obtain ⟨taken, rest, rfl, hrest, hpass, -⟩ := ih hls
      refine ⟨l :: taken, rest, rfl, hrest, ?_, by simp⟩
      simp only [loadPass, hl, hnd, hlink, hpass, bind_eq_bind, bind_some]

theorem walk_of_loadPass {r : List Loc × Option Loc} (h : loadPass s bs next = some r)
    (hbs : ∀ b ∈ bs, b ∈ s.ptrBids) (hls : Walk s ls) (hhead : ls.head? = r.2) :
    (r.1 ++ ls).head? = next ∧ Walk s (r.1 ++ ls) := by
  induction bs generalizing next r with
  | nil =>
    cases h
    exact ⟨hhead, hls⟩
  | cons b bs ih =>
    rw [forall_mem_cons] at hbs
    cases hl : next.filter (·.1 = b) with
    | none =>
      simp only [loadPass, hl] at h
      exact ih h hbs.2 hhead
    | some l =>
      obtain ⟨rfl, hb⟩ := filter_eq_some_iff.1 hl
      simp only [loadPass, hl, bind_eq_bind, bind_eq_some_iff] at h
      obtain ⟨nd, hnd, r, hr, h⟩ := h
      obtain rfl := some.inj h
      obtain ⟨hnext, hwalk⟩ := ih hr hbs.2 hhead
      have hmem : l.1 ∈ s.ptrBids := by simpa [of_decide_eq_true hb] using hbs.1
      exact ⟨rfl, walk_cons.2 ⟨hnext.symm, hmem, isSome_of_mem hnd, hwalk⟩⟩

theorem loadLoop_of_walk (h : Walk s ls) (hfuel : ls.length ≤ fuel) : loadLoop s fuel ls.head? = some ls := by
  induction fuel generalizing ls with
  | zero => rw [length_eq_zero_iff.1 (Nat.le_zero.1 hfuel), head?_nil, loadLoop]
  | succ fuel ih =>
    cases ls with
    | nil => rfl
    | cons l ls =>
      obtain ⟨taken, rest, heq, hrest, hpass, htaken⟩ := exists_loadPass h s.ptrBids
      have hpos := length_pos_iff.2 (htaken l rfl (walk_cons.1 h).2.1)
      have hlen := congrArg length heq
      rw [length_append] at hlen
      rw [head?_cons] at hpass ⊢
      simp only [loadLoop, hpass, bind_eq_bind, bind_some]
      rw [ih hrest (by omega), map_some, heq]

theorem walk_of_loadLoop (h : loadLoop s fuel next = some ls) : ls.head? = next ∧ Walk s ls := by
  induction fuel generalizing next ls with
  | zero =>
    cases next with
    | none => exact some.inj h ▸ ⟨rfl, walk_nil⟩
    | some l => cases h
  | succ fuel ih =>
    cases next with
    | none => exact some.inj h ▸ ⟨rfl, walk_nil⟩
    | some l =>
      simp only [loadLoop, bind_eq_bind, bind_eq_some_iff] at h
      obtain ⟨r, hr, h⟩ := h
      obtain ⟨rest, hrest, rfl⟩ := map_eq_some_iff.1 h
      obtain ⟨hhead, hwalk⟩ := ih hrest
      exact walk_of_loadPass hr (fun b hb => hb) hwalk hhead

theorem loadDptrChain_of_walk (h : Walk s (l :: ls)) (hfuel : ls.length ≤ fuel) :
    loadDptrChain s fuel (some l) = some (.ok ({ s with entry := Node.link s.entry (l :: ls) }, l)) := by
  obtain ⟨hlink, hl, hentry, hls⟩ := walk_cons.1 h
  obtain ⟨nd, hnd⟩ := isSome_iff_exists.1 hentry
  rw [loadDptrChain, if_pos hl]
  simp only [hnd, hlink, bind_eq_bind, bind_some, loadLoop_of_walk hls hfuel, map_some]

theorem walk_of_loadDptrChain {r : Except JErr (Store × Loc)} (h : loadDptrChain s fuel (some l) = some r)
    (hl : l.1 ∈ s.ptrBids) : ∃ ls, r = .ok ({ s with entry := Node.link s.entry (l :: ls) }, l) ∧ Walk s (l :: ls) := by
  rw [loadDptrChain, if_pos hl] at h
  obtain ⟨nd, hnd, h⟩ := bind_eq_some_iff.1 h
  obtain ⟨ls, hls, rfl⟩ := map_eq_some_iff.1 h
  obtain ⟨hhead, hwalk⟩ := walk_of_loadLoop hls
  exact ⟨ls, rfl, walk_cons.2 ⟨hhead.symm, hl, isSome_of_mem hnd, hwalk⟩⟩

/-- A chain is loaded, without an access to a missing entry, if and only if its links end and lead to entries. -/
theorem exists_loadDptrChain_iff (s : Store) (first : Option Loc) : (∃ fuel r, loadDptrChain s fuel first = some r) ↔
    ∀ l ∈ first, l.1 ∈ s.ptrBids → ∃ ls, Walk s (l :: ls) := by
  constructor
  · rintro ⟨fuel, r, h⟩ l rfl hl
    obtain ⟨ls, -, hwalk⟩ := walk_of_loadDptrChain h hl
    exact ⟨ls, hwalk⟩
  · intro h
    cases first with
    | none => exact ⟨0, _, rfl⟩
    | some l =>
      by_cases hl : l.1 ∈ s.ptrBids
      · obtain ⟨ls, hls⟩ := h l rfl hl
        exact ⟨_, _, loadDptrChain_of_walk hls le_rfl⟩
      · exact ⟨0, _, by rw [loadDptrChain, if_neg hl]⟩

def selfLinked : Store := { emptyStore with
  ptrBids := [1], ptrBids_nodup := nodup_singleton 1, entry := fun _ => some ⟨⟨some 0, 0, 1⟩, none⟩
  link := fun _ => some (1, 0) }

theorem not_loadDptrChain_selfLinked : ¬∃ fuel r, loadDptrChain selfLinked fuel (some (1, 0)) = some r := by
  have hloop : ∀ fuel, loadLoop selfLinked fuel (some (1, 0)) = none := by
    intro fuel
    induction fuel with
    | zero => rfl
    | succ fuel ih => exact congrArg (·.map ([(1, 0)] ++ ·)) ih
  rintro ⟨fuel, r, h⟩
  replace h : ((loadLoop selfLinked fuel (some (1, 0))).map fun ls =>
    .ok ({ selfLinked with entry := Node.link selfLinked.entry ((1, 0) :: ls) }, (1, 0))) = some r := h
  rw [hloop] at h
  cases h

/-- The counter of each block is the number of its entries in use. -/
def NentExact (g : Geometry) (s : Store) : Prop := ∀ b ∈ s.ptrBids, s.ptrNent b =
  ((List.range g.dptrBent).filter fun i => !(s.entry (b, i)).any fun nd => nd.val.bid.isNone).length

theorem NentExact.counted (h : NentExact g s) : Counted g s := by
  intro b hb _ _
  rw [h b hb, freeEntries, Nat.add_comm, ← length_eq_length_filter_add, length_range]

/-- `l` and `ls` are linked in memory, and by the links of the file. -/
def Joined (s : Store) (l : Loc) (ls : List Loc) : Prop := Node.Path s.entry (l :: ls) ∧ Walk s (l :: ls)

theorem joined_link (hnodup : (l :: ls).Nodup) (hmem : ∀ x ∈ l :: ls, x.1 ∈ s.ptrBids ∧ (s.entry x).isSome) :
    Joined { s with entry := Node.link s.entry (l :: ls), link := Node.relink s.link (l :: ls) } l ls := by
  have hpath := Node.path_link hnodup fun x hx => (hmem x hx).2
  exact ⟨hpath, Node.chain_relink hnodup, fun x hx => ⟨(hmem x hx).1, hpath.isSome hx⟩⟩

/-- A chain that is built has as many entries as are needed, all different and free before. `next` and the links of the
file lead along it, and from the latter it is loaded again, whatever `next` of the entries is then. -/
theorem createDptrChain_walk {needed : ℕ} (hnent : NentExact g s) (h : createDptrChain env g s needed = some (s', l)) :
    ∃ ls, (l :: ls).length = needed ∧ (l :: ls).Nodup ∧
      (∀ x ∈ l :: ls, x.1 ∈ s.ptrBids → x.2 ∈ freeEntries g s.entry x.1) ∧
      Node.Path s'.entry (l :: ls) ∧ Walk s' (l :: ls) ∧
      ∀ entry, (∀ x, (entry x).isSome = (s'.entry x).isSome) → ∀ fuel ≥ needed, ∃ s'',
        loadDptrChain { s' with entry } fuel (some l) = some (.ok (s'', l)) ∧ Node.Path s''.entry (l :: ls) := by
  unfold createDptrChain at h
  split_ifs at h with hzero
  cases htake : takePtrs env g (needed + 1) s needed with
  | none => simp [htake] at h
  | some r =>
    obtain ⟨s1, taken⟩ := r
    have hptrs : PtrsFor env g s needed := by
      by_cases hfresh : env.freshNent < g.dptrBent
      · exact .inr ⟨hfresh, hnent.counted⟩
      · refine .inl (Nat.le_of_not_lt fun hlt => ?_)
        -- new blocks count as full, so that nothing is found in them
        have hnil := available_scanned_of_counted (n := needed) hnent.counted hlt.le
        rw [takePtrs_succ, if_neg hlt.not_ge, takePtrs_eq_none (Nat.le_of_not_lt hfresh)
          (by rw [available_createDataPtr, hnil, if_neg hfresh, nil_append]) (by omega)] at htake
        cases htake
    obtain ⟨s2, ls2, htake2, hlen, hnodup, hmem, -⟩ :=
      hptrs.exists_takePtrs (Nat.succ_pos needed) (by omega)
    obtain ⟨rfl, rfl⟩ := Prod.mk.inj (some.inj (htake.symm.trans htake2))
    cases taken with
    | nil => exact absurd hlen.symm hzero
    | cons l' ls =>
      rw [htake] at h
      obtain ⟨rfl, rfl⟩ := Prod.mk.inj (some.inj h)
      obtain ⟨hpath, hwalk⟩ := joined_link hnodup fun x hx => (hmem x hx).2
      refine ⟨ls, hlen, hnodup, fun x hx hb => ?_, hpath, hwalk, fun entry hentry fuel hfuel => ?_⟩
      · exact (mem_available ((hmem x hx).1.resolve_right (absurd hb))).2.2
      · have hsome : ∀ x ∈ l' :: ls, (entry x).isSome := fun x hx => hentry x ▸ hpath.isSome hx
        have hload := loadDptrChain_of_walk (s := { s1 with entry, link := Node.relink s1.link (l' :: ls) })
          ⟨hwalk.1, fun x hx => ⟨(hwalk.2 x hx).1, hsome x hx⟩⟩ (by rw [length_cons] at hlen; omega : ls.length ≤ fuel)
        exact ⟨_, hload, Node.path_link hnodup hsome⟩

theorem createDptrChain_walk_two : ∃ s' l ls, createDptrChain countingEnv byteGeometry emptyStore 6 = some (s', l) ∧
    (l :: ls).length = 6 ∧ Node.Path s'.entry (l :: ls) ∧ Walk s' (l :: ls) := by
  have hnent : NentExact byteGeometry emptyStore := fun b hb => by cases hb
  obtain ⟨⟨s', l⟩, hr⟩ : ∃ r, createDptrChain countingEnv byteGeometry emptyStore 6 = some r := ⟨_, rfl⟩
  obtain ⟨ls, hlen, -, -, hpath, hwalk, -⟩ := createDptrChain_walk hnent hr
  exact ⟨s', l, ls, hr, hlen, hpath, hwalk⟩

end Prj.Jlib
