import Prj.Infolink.Poll

/-! Over which runs of `ilink_poll_add` and `ilink_poll_rm` the poll list is right. -/
namespace Prj.Infolink
open Prj.Lib13 List Option

variable {Link : Type} [DecidableEq Link] {env : Env Link} {s s' : PollList Link}
  {r : Registered Link} {locked : Bool}

section Rm
variable {sockfd : ℤ} {dir : Dirs} {nolock : Bool} {x y : Link}

theorem Inv.step_rm_eq (h : Inv env s locked r)
    (hnone : ∀ y ∈ r.order, env.sock y = sockfd → ∀ d, r.dirs y d = true → dir d = false)
    (nolock : Bool) : r.step env (.rm sockfd dir nolock) = r := by
  have hdirs : (fun x d => r.dirs x d && !(env.sock x = sockfd && dir d)) = r.dirs := by
    funext y d
    cases hd : r.dirs y d with
    | false => rfl
    | true =>
      by_cases hsock : env.sock y = sockfd
      · simp [hnone y (h.mem_of_dirs hd) hsock d hd]
      · simp [hsock]
  have horder : (r.order.filter fun x => (r.dirs x).any) = r.order := by
    rw [filter_eq_self]
    exact fun y hy => (h.mem y).1 hy
  rw [Registered.step, hdirs, horder]

theorem pollRm_other (h : Inv env s locked r) (hblocks : blocks env nolock s = false) (dir : Dirs)
    (hfirst : ∀ x ∈ r.order.head?, env.sock x ≠ sockfd) : pollRm env sockfd dir nolock s =
      some (.err .notfound, { s with locked := s.locked || (env.mx && !nolock) }) := by
  unfold pollRm
  simp only [hblocks, Bool.false_eq_true, if_false]
  split
  · rfl
  · rename_i y ys hitems
    have hy : y ∈ r.order.head? := by
      rw [← h.items, hitems]
      exact rfl
    rw [if_neg (hfirst y hy)]

omit [DecidableEq Link] in
theorem Inv.dirs_of_ne (h : Inv env s locked r) (horder : r.order = [x]) (hy : y ≠ x)
    (d : Dir) : r.dirs y d = false := by
  apply h.dirs_of_not_mem
  rw [horder]
  simpa using hy

omit [DecidableEq Link] in
theorem dirs_and_not (hall : ∀ d, r.dirs x d = true → dir d = true) (d : Dir) : (r.dirs x d && !dir d) = false := by
  cases hd : r.dirs x d with
  | false => rfl
  | true => simp [hall d hd]

section
variable (h : Inv env s locked r) (horder : r.order = [x]) (hsock : env.sock x = sockfd)
  (hall : ∀ d, r.dirs x d = true → dir d = true)
include h horder hsock hall

theorem Inv.step_rm_eq_none (nolock : Bool) : r.step env (.rm sockfd dir nolock) = Registered.none := by
  have hdirs : (fun y d => r.dirs y d && !(env.sock y = sockfd && dir d)) = fun _ _ => false := by
    funext y d
    by_cases hy : y = x
    · simpa [hy, hsock] using dirs_and_not hall d
    · simp [h.dirs_of_ne horder hy d]
  rw [Registered.step, hdirs]
  simp [Registered.none, Dirs.any]

theorem Inv.removed (hblocks : blocks env nolock s = false) : ∃ s', pollRm env sockfd dir nolock s = some (.ok, s') ∧
      Inv env s' locked (r.step env (.rm sockfd dir nolock)) := by
  have hitems : s.items = [x] := h.items.trans horder
  have hflags : ∀ y, s.pollflags y = r.dirs y := fun y => by rw [h.flags]
  unfold pollRm
  simp only [hblocks, Bool.false_eq_true, if_false, hitems, hsock, if_true]
  refine ⟨_, rfl, ?_⟩
  rw [h.step_rm_eq_none horder hsock hall]
  constructor
  · rfl
  · exact nodup_nil
  · simp [Registered.none, Dirs.any]
  · funext y d
    by_cases hy : y = x
    · subst hy
      simpa [Registered.none, hflags] using dirs_and_not hall d
    · simp [hy, Registered.none, hflags, h.dirs_of_ne horder hy d]
  · intro d
    have hn := h.nfds d
    rw [horder, countP_singleton] at hn
    cases hd : r.dirs x d with
    | false => simp [hflags, hd, hn, Registered.none]
    | true => simp [hflags, hd, hn, Registered.none, hall d hd]
  · intro d k
    constructor
    · intro hset
      exfalso
      have hbak : (if dir d && s.pollflags x d && decide (k = sockfd) then false else s.bak d k) = true :=
        hset
      split_ifs at hbak with hcond
      obtain ⟨y, hy, hk⟩ := (h.bak d k).1 hbak
      have hyx : y = x := by
        by_contra hne
        rw [h.dirs_of_ne horder hne d] at hy
        cases hy
      subst hyx
      simp [hflags, hy, hall d hy, ← hk, hsock] at hcond
    · rintro ⟨y, hy, -⟩
      cases hy
  · simp only [h.fds]
  · simp [Registered.none]
  · simp [Registered.none]
  · simp [Registered.none]
  · simp [Registered.none]
  · exact h.locked

end
end Rm

section Runs
variable {call : PollCall Link} {link x : Link} {dir : Dirs} {nolock : Bool} {sockfd : ℤ}

theorem Inv.add (h : Inv env s locked r) (hblocks : blocks env nolock s = false)
    (hcareful : (PollCall.add link dir nolock).Careful env r) : ∃ s', pollAdd env link dir nolock s = some s' ∧
      Inv env s' locked (r.step env (.add link dir nolock)) := by
  by_cases hnew : ∀ x ∈ r.order, env.sock x ≠ env.sock link
  · obtain ⟨hdir, hk⟩ := (careful_add_new hnew).1 hcareful
    refine ⟨_, ?_, h.appended hnew hk hdir nolock⟩
    rw [pollAdd_new h hblocks hnew, if_pos fun _ => hk]
  · push Not at hnew
    obtain ⟨x, hx, hsock⟩ := hnew
    rcases (h.careful_add_old hx hsock).1 hcareful with hdir | ⟨rfl, hex⟩
    · rw [step_add_nothing hdir]
      refine ⟨s, ?_, h⟩
      rw [pollAdd_old h hblocks hx hsock, updated_nothing hdir, if_pos]
      simp [Dirs.any_eq_false_iff.1 hdir]
    · refine ⟨_, ?_, h.updated hx nolock⟩
      rw [pollAdd_old h hblocks hx hsock, h.fds_of_mem hx, if_pos hex]

theorem Inv.rm (h : Inv env s locked r) (hblocks : blocks env nolock s = false)
    (hcareful : (PollCall.rm sockfd dir nolock).Careful env r) :
    ∃ ret s', pollRm env sockfd dir nolock s = some (ret, s') ∧
      Inv env s' (locked || (PollCall.rm sockfd dir nolock).leaves env r) (r.step env (.rm sockfd dir nolock)) := by
  unfold PollCall.Careful at hcareful
  cases horder : r.order with
  | nil =>
    have hfirst : ∀ x ∈ r.order.head?, env.sock x ≠ sockfd := by simp [horder]
    have hrm := pollRm_other h hblocks dir hfirst
    refine ⟨_, _, hrm, ?_⟩
    rw [h.step_rm_eq (by simp [horder])]
    simp only [PollCall.leaves, horder, head?_nil, any_none, Bool.not_false, Bool.and_true]
    exact h.left_locked _
  | cons x rest =>
    simp only [horder] at hcareful
    split_ifs at hcareful with hsock
    · obtain ⟨rfl, hall⟩ := hcareful
      obtain ⟨s', hrm, hinv⟩ := h.removed horder hsock hall hblocks
      refine ⟨_, s', hrm, ?_⟩
      simpa [PollCall.leaves, horder, hsock] using hinv
    · have hfirst : ∀ x ∈ r.order.head?, env.sock x ≠ sockfd := by simpa [horder] using hsock
      have hrm := pollRm_other h hblocks dir hfirst
      refine ⟨_, _, hrm, ?_⟩
      rw [h.step_rm_eq]
      · simp only [PollCall.leaves, horder, head?_cons, any_some, hsock, decide_false, Bool.not_false, Bool.and_true]
        exact h.left_locked _
      · rw [horder, forall_mem_cons]
        exact ⟨fun heq => absurd heq hsock, hcareful⟩

theorem Inv.step (h : Inv env s locked r) (hlock : call.locks env = true → locked = false)
    (hcareful : call.Careful env r) :
    ∃ s', call.run env s = some s' ∧ Inv env s' (locked || call.leaves env r) (r.step env call) := by
  have hblocks : ∀ nolock, (env.mx && !nolock) = call.locks env → blocks env nolock s = false := by
    intro nolock hnolock
    rw [h.blocks_eq, hnolock]
    cases hcall : call.locks env with
    | false => rfl
    | true => rw [hlock hcall, Bool.and_false]
  cases call with
  | add link dir nolock =>
    rw [PollCall.leaves, Bool.or_false]
    exact h.add (hblocks nolock rfl) hcareful
  | rm sockfd dir nolock =>
    obtain ⟨ret, s', hrm, hinv⟩ := h.rm (hblocks nolock rfl) hcareful
    exact ⟨s', by rw [PollCall.run, hrm]; rfl, hinv⟩

section
variable (h : Inv env s locked r)
include h

theorem Inv.careful_of_add (hadd : pollAdd env link dir nolock s = some s')
    (hright : Right env s' (r.step env (.add link dir nolock))) : (PollCall.add link dir nolock).Careful env r := by
  have hany := hright.mem link
  have hblocks : blocks env nolock s = false := by
    by_contra hne
    rw [pollAdd, if_pos (by simpa using hne)] at hadd
    cases hadd
  by_cases hnew : ∀ x ∈ r.order, env.sock x ≠ env.sock link
  · rw [pollAdd_new h hblocks hnew] at hadd
    split_ifs at hadd with hk
    cases hadd
    rw [careful_add_new hnew]
    have hdir : dir.any = true := by
      rcases update_any_iff.1 (hany.1 (mem_append_right _ mem_cons_self)) with hlink | ⟨-, hdir⟩
      · exact absurd rfl (hnew link ((h.mem link).2 hlink))
      · exact hdir
    exact ⟨hdir, hk hdir⟩
  · push Not at hnew
    obtain ⟨x, hx, hsock⟩ := hnew
    rw [pollAdd_old h hblocks hx hsock] at hadd
    split_ifs at hadd with hex
    cases hadd
    rw [h.careful_add_old hx hsock]
    by_contra hnot
    push Not at hnot
    have hlink : link ∈ r.order := by
      rw [← h.items]
      apply hany.2
      exact update_any_iff.2 (.inr ⟨rfl, by simpa using hnot.1⟩)
    obtain rfl := h.inj x hx link hlink hsock
    obtain ⟨hdir, hnone⟩ := hnot.2 rfl
    exact hnone (h.fds_of_mem hx .ex ▸ hex hdir)

theorem Inv.careful_of_rm {ret : Ret} (hrm : pollRm env sockfd dir nolock s = some (ret, s'))
    (hright : Right env s' (r.step env (.rm sockfd dir nolock))) : (PollCall.rm sockfd dir nolock).Careful env r := by
  have hblocks : blocks env nolock s = false := by
    by_contra hne
    rw [pollRm, if_pos (by simpa using hne)] at hrm
    cases hrm
  unfold PollCall.Careful
  cases horder : r.order with
  | nil => trivial
  | cons x rest =>
    simp only
    split_ifs with hsock
    · -- the list is gone, so that nothing may be left registered
      have hnil : s'.items = [] := by
        unfold pollRm at hrm
        simp only [hblocks, Bool.false_eq_true, if_false, h.items, horder, hsock, if_true] at hrm
        cases hrm
        rfl
      have hnone : ∀ y d, (r.dirs y d && !(env.sock y = sockfd && dir d)) = false := by
        intro y d
        by_contra hd
        have hmem := (hright.mem y).2 (Dirs.any_eq_true_iff.2 ⟨d, eq_true_of_ne_false hd⟩)
        rw [hnil] at hmem
        cases hmem
      constructor
      · by_contra hrest
        obtain ⟨y, ys, rfl⟩ := exists_cons_of_ne_nil hrest
        have hy : y ∈ r.order := by simp [horder]
        have hyx : env.sock y ≠ sockfd := by
          rw [← hsock]
          intro heq
          have hxy := h.inj y hy x (by simp [horder]) heq
          have hnodup := h.nodup
          rw [horder, hxy] at hnodup
          exact (nodup_cons.1 hnodup).1 mem_cons_self
        obtain ⟨d, hd⟩ := Dirs.any_eq_true_iff.1 ((h.mem y).1 hy)
        have := hnone y d
        simp [hd, hyx] at this
      · intro d hd
        have := hnone x d
        simpa [hd, hsock] using this
    · -- the sets are as before
      intro y hy hyk d hd
      have hfirst : ∀ x ∈ r.order.head?, env.sock x ≠ sockfd := by simpa [horder] using hsock
      rw [pollRm_other h hblocks dir hfirst] at hrm
      cases hrm
      obtain ⟨z, hz, hzk⟩ := (hright.bak d sockfd).1 ((h.bak d sockfd).2 ⟨y, hd, hyk⟩)
      have hzd : (r.dirs z d && !(env.sock z = sockfd && dir d)) = true := hz
      simp only [hzk, decide_true, Bool.true_and, Bool.and_eq_true, Bool.not_eq_true'] at hzd
      exact hzd.2

theorem Inv.locks (hrun : call.run env s = some s') : call.locks env = true → locked = false := by
  intro hcall
  by_contra hlocked
  have hblocks : ∀ nolock, (env.mx && !nolock) = call.locks env → blocks env nolock s = true := by
    intro nolock hnolock
    rw [h.blocks_eq, hnolock, hcall]
    simpa using hlocked
  cases call with
  | add link dir nolock =>
    rw [PollCall.run, pollAdd, if_pos (hblocks nolock rfl)] at hrun
    cases hrun
  | rm sockfd dir nolock =>
    rw [PollCall.run, pollRm, if_pos (hblocks nolock rfl)] at hrun
    cases hrun

theorem Inv.careful (hrun : call.run env s = some s')
    (hright : Right env s' (r.step env call)) : call.Careful env r := by
  cases call with
  | add link dir nolock => exact h.careful_of_add hrun hright
  | rm sockfd dir nolock =>
    obtain ⟨⟨ret, s''⟩, hrm, rfl⟩ := map_eq_some_iff.1 hrun
    exact h.careful_of_rm hrm hright

theorem Inv.rightRun_iff (calls : List (PollCall Link)) : RightRun env s r calls ↔ CarefulRun env locked r calls := by
  induction calls generalizing s locked r with
  | nil => exact Iff.rfl
  | cons call calls ih =>
    constructor
    · rintro ⟨s', hrun, hright, hcalls⟩
      have hlock := h.locks hrun
      have hcareful := h.careful hrun hright
      obtain ⟨s'', hrun', hinv⟩ := h.step hlock hcareful
      obtain rfl := some.inj (hrun.symm.trans hrun')
      exact ⟨hlock, hcareful, (ih hinv).1 hcalls⟩
    · rintro ⟨hlock, hcareful, hcalls⟩
      obtain ⟨s', hrun, hinv⟩ := h.step hlock hcareful
      exact ⟨s', hrun, hinv.right, (ih hinv).2 hcalls⟩

end

theorem rightRun_init_iff (env : Env Link) (last : Option Link) (calls : List (PollCall Link)) :
    RightRun env (PollList.init last) Registered.none calls ↔ CarefulRun env false Registered.none calls := by
  apply Inv.rightRun_iff
  constructor <;> simp [PollList.init, Registered.none, Dirs.any]

end Runs

def twoThenOne : List (PollCall ℤ) :=
  [.add 3 (fun d => d = .rd) true, .add 4 (fun d => d = .rd) true, .rm 3 (fun _ => true) true]

theorem not_rightRun_twoThenOne : ¬RightRun ⟨id, false⟩ (PollList.init none) Registered.none twoThenOne := by
  rintro ⟨s1, h1, -, s2, h2, -, s3, h3, hright, -⟩
  cases h1
  cases h2
  cases h3
  have hmem := (hright.mem 4).2 rfl
  cases hmem

end Prj.Infolink
