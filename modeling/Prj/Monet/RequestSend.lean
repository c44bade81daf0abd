import Mathlib.Data.List.Perm.Subperm
import Prj.Lib13.Error

/-! One packet for the users of a list (`_monet_request_send` in `libmonetr/monet_poll.c`). -/
namespace Prj.Monet
open Prj.Lib13 List Option

/-- A connected user with its link: `pipe` is `ILINK_FLAG_PIPE`, `sendList` are the packets of
`link->send_list`. -/
structure User (Pkt : Type) where
  uid : BitVec 32
  pipe : Bool
  sendList : List Pkt

section Model
variable {Pkt : Type}

/-- The end of `ilink_prepare_pkt`: the packet is appended to the send list. -/
def User.queue (user : User Pkt) (pkt : Pkt) : User Pkt :=
  { user with sendList := user.sendList ++ [pkt] }

/-- What is left: the slots of the user array, the slots whose links are chained by `popnext`, and
the last result of `ilink_prepare_pkt` if there was one. -/
structure Sent (Pkt : Type) where
  array : List (Option (User Pkt))
  chain : List ℕ
  ret : Option Ret

def Sent.after (slot : Option (User Pkt)) (s : Sent Pkt) : Sent Pkt :=
  { s with array := slot :: s.array }

def Sent.chained (j : ℕ) (s : Sent Pkt) : Sent Pkt :=
  { s with chain := j :: s.chain, ret := some (s.ret.getD .ok) }

/-- The loop from slot `j` on. `prepare` is the packet for the link in a slot, or the error of
`ilink_prepare_pkt`. The result is `none` when `uidlist` is read behind its end. -/
def sendLoop (prepare : ℕ → Except E13 Pkt) (uidlist : List (BitVec 32)) :
    ℕ → ℕ → List (Option (User Pkt)) → Option (Sent Pkt)
  | _, _, [] => some ⟨[], [], none⟩
  | i, j, none :: slots => (sendLoop prepare uidlist i (j + 1) slots).map (.after none)
  | i, j, some user :: slots =>
    match uidlist[i]? with
    | none => none
    | some uid =>
      if user.uid = uid ∧ user.pipe = false then
        match prepare j with
        | .error e => some ⟨some user :: slots, [j], some (.err e)⟩
        | .ok pkt =>
          if i + 1 = uidlist.length then some ⟨some (user.queue pkt) :: slots, [j], some .ok⟩
          else (sendLoop prepare uidlist (i + 1) (j + 1) slots).map fun s =>
            (s.chained j).after (some (user.queue pkt))
      else (sendLoop prepare uidlist i (j + 1) slots).map (.after (some user))

def requestSend (prepare : ℕ → Except E13 Pkt) (uidlist : List (BitVec 32))
    (array : List (Option (User Pkt))) : Option (Sent Pkt) :=
  sendLoop prepare uidlist 0 0 array

end Model

section Spec
variable {Pkt : Type} (prepare : ℕ → Except E13 Pkt) (uidlist : List (BitVec 32))

def listedUid : Option (User Pkt) → Option (BitVec 32)
  | some user => if user.uid ∈ uidlist ∧ user.pipe = false then some user.uid else none
  | none => none

def RightSlot (j : ℕ) (slot slot' : Option (User Pkt)) : Prop :=
  match slot with
  | none => slot' = none
  | some user =>
    if user.uid ∈ uidlist ∧ user.pipe = false then
      ∃ pkt, prepare j = .ok pkt ∧ slot' = some (user.queue pkt)
    else slot' = some user

/-- The packet is queued once for every user of the list and for no other. -/
def SendsToAll (array : List (Option (User Pkt))) : Prop :=
  ∃ s, requestSend prepare uidlist array = some s ∧ s.array.length = array.length ∧
    ∀ j slot slot', array[j]? = some slot → s.array[j]? = some slot' → RightSlot prepare uidlist j slot slot'

def RightFrom : ℕ → List (Option (User Pkt)) → List (Option (User Pkt)) → Prop
  | _, [], slots' => slots' = []
  | j, slot :: slots, slots' =>
    ∃ slot' rest, slots' = slot' :: rest ∧ RightSlot prepare uidlist j slot slot' ∧ RightFrom (j + 1) slots rest

def PreparedFrom (j : ℕ) (slots : List (Option (User Pkt))) : Prop :=
  ∀ k slot, slots[k]? = some slot → (listedUid uidlist slot).isSome = true → ∃ pkt, prepare (j + k) = .ok pkt

end Spec

section Lemmas
variable {Pkt : Type} {prepare : ℕ → Except E13 Pkt} {uidlist : List (BitVec 32)}
  {slot : Option (User Pkt)} {slots slots' : List (Option (User Pkt))} {user : User Pkt} {j : ℕ} {i : ℕ}

theorem User.queue_ne (user : User Pkt) (pkt : Pkt) : user.queue pkt ≠ user := by
  intro h
  have hlen := congrArg (fun u => u.sendList.length) h
  simp [User.queue] at hlen

theorem rightFrom_iff : RightFrom prepare uidlist j slots slots' ↔ slots'.length = slots.length ∧
    ∀ k slot slot', slots[k]? = some slot → slots'[k]? = some slot' → RightSlot prepare uidlist (j + k) slot slot' := by
  induction slots generalizing j slots' with
  | nil => simp [RightFrom]
  | cons slot slots ih =>
    constructor
    · rintro ⟨slot', rest, rfl, hslot, hrest⟩
      obtain ⟨hlen, hall⟩ := ih.1 hrest
      constructor
      · simp [hlen]
      · intro k a a' ha ha'
        cases k with
        | zero =>
          obtain rfl : slot = a := by simpa using ha
          obtain rfl : slot' = a' := by simpa using ha'
          exact hslot
        | succ k =>
          rw [Nat.add_comm k, ← Nat.add_assoc]
          exact hall k a a' (by simpa using ha) (by simpa using ha')
    · rintro ⟨hlen, hall⟩
      cases slots' with
      | nil => simp at hlen
      | cons slot' rest =>
        refine ⟨slot', rest, rfl, hall 0 slot slot' rfl rfl, ih.2 ⟨by simpa using hlen, ?_⟩⟩
        intro k a a' ha ha'
        have hk := hall (k + 1) a a' (by simpa using ha) (by simpa using ha')
        rwa [Nat.add_comm k, ← Nat.add_assoc] at hk

theorem preparedFrom_cons : PreparedFrom prepare uidlist j (slot :: slots) ↔
    ((listedUid uidlist slot).isSome = true → ∃ pkt, prepare j = .ok pkt) ∧
      PreparedFrom prepare uidlist (j + 1) slots := by
  constructor
  · intro h
    constructor
    · exact h 0 slot rfl
    · intro k a ha hlisted
      have hk := h (k + 1) a (by simpa using ha) hlisted
      rwa [Nat.add_comm k, ← Nat.add_assoc] at hk
  · rintro ⟨hslot, hslots⟩ k a ha hlisted
    cases k with
    | zero =>
      obtain rfl : slot = a := by simpa using ha
      exact hslot hlisted
    | succ k =>
      rw [Nat.add_comm k, ← Nat.add_assoc]
      exact hslots k a (by simpa using ha) hlisted

theorem rightFrom_self : RightFrom prepare uidlist j slots slots ↔ slots.filterMap (listedUid uidlist) = [] := by
  induction slots generalizing j with
  | nil => simp [RightFrom]
  | cons slot slots ih =>
    unfold RightFrom
    simp only [List.cons.injEq, exists_eq_left', exists_and_left, ih, and_assoc, filterMap_cons]
    cases slot with
    | none => simp [RightSlot, listedUid]
    | some user =>
      by_cases hu : user.uid ∈ uidlist ∧ user.pipe = false
      · have hne : ∀ pkt, user ≠ user.queue pkt := fun pkt h => user.queue_ne pkt h.symm
        simp [RightSlot, listedUid, hu, hne]
      · simp [RightSlot, listedUid, hu]

theorem preparedFrom_of_nil (h : slots.filterMap (listedUid uidlist) = []) : PreparedFrom prepare uidlist j slots := by
  intro k slot hslot hlisted
  have hnone := filterMap_eq_nil_iff.1 h slot (mem_of_getElem? hslot)
  simp [hnone] at hlisted

def Sends (prepare : ℕ → Except E13 Pkt) (uidlist : List (BitVec 32)) (i j : ℕ)
    (slots : List (Option (User Pkt))) : Prop :=
  ∃ s, sendLoop prepare uidlist i j slots = some s ∧ RightFrom prepare uidlist j slots s.array

theorem sends_skip (hi : i < uidlist.length) (hnone : listedUid uidlist slot = none) :
    Sends prepare uidlist i j (slot :: slots) ↔ Sends prepare uidlist i (j + 1) slots := by
  have hslot : ∀ slot', RightSlot prepare uidlist j slot slot' ↔ slot' = slot := by
    intro slot'
    cases slot with
    | none => rfl
    | some user =>
      have hu : ¬(user.uid ∈ uidlist ∧ user.pipe = false) := fun hu => by simp [listedUid, hu] at hnone
      simp [RightSlot, hu]
  have hloop : sendLoop prepare uidlist i j (slot :: slots) =
      (sendLoop prepare uidlist i (j + 1) slots).map (.after slot) := by
    cases slot with
    | none => rfl
    | some user =>
      have hne : ¬(user.uid = uidlist[i] ∧ user.pipe = false) := by
        rintro ⟨huid, hpipe⟩
        have hmem : user.uid ∈ uidlist := huid ▸ getElem_mem hi
        simp [listedUid, hmem, hpipe] at hnone
      simp only [sendLoop, getElem?_eq_getElem hi, if_neg hne]
  rw [Sends, hloop]
  simp [Sends, RightFrom, hslot, Sent.after]

theorem not_sends_of_ne (hi : i < uidlist.length) (hu : user.uid ∈ uidlist ∧ user.pipe = false)
    (hne : user.uid ≠ uidlist[i]) : ¬Sends prepare uidlist i j (some user :: slots) := by
  rintro ⟨s, hs, hright⟩
  have hif : ¬(user.uid = uidlist[i] ∧ user.pipe = false) := fun h => hne h.1
  simp only [sendLoop, getElem?_eq_getElem hi, if_neg hif, map_eq_some_iff] at hs
  obtain ⟨t, -, rfl⟩ := hs
  obtain ⟨slot', rest, harray, hslot, -⟩ := hright
  cases harray
  simp only [RightSlot, if_pos hu, some.injEq] at hslot
  obtain ⟨pkt, -, hqueue⟩ := hslot
  exact user.queue_ne pkt hqueue.symm

theorem not_sends_of_error {e : E13} (hu : user.uid ∈ uidlist ∧ user.pipe = false)
    (hprep : prepare j = .error e) : ¬Sends prepare uidlist i j (some user :: slots) := by
  rintro ⟨s, -, slot', rest, -, hslot, -⟩
  simp [RightSlot, hu, hprep] at hslot

/-- The user whose turn it is gets the packet, and the loop goes on with the next id or stops. -/
theorem sends_queue {pkt : Pkt} (hi : i < uidlist.length)
    (hu : user.uid ∈ uidlist ∧ user.pipe = false) (huid : user.uid = uidlist[i])
    (hprep : prepare j = .ok pkt) : Sends prepare uidlist i j (some user :: slots) ↔
      if i + 1 = uidlist.length then RightFrom prepare uidlist (j + 1) slots slots
      else Sends prepare uidlist (i + 1) (j + 1) slots := by
  have hslot : ∀ slot', RightSlot prepare uidlist j (some user) slot' ↔ slot' = some (user.queue pkt) := by
    simp [RightSlot, hu, hprep]
  have hif : user.uid = uidlist[i] ∧ user.pipe = false := ⟨huid, hu.2⟩
  simp only [Sends, sendLoop, getElem?_eq_getElem hi, if_pos hif, hprep]
  split_ifs
  · simp [RightFrom, hslot]
  · simp [RightFrom, hslot, Sent.after, Sent.chained]

/-- From slot `j` on, the users of the list have to stand in the order of the list. -/
theorem sends_iff (hi : i < uidlist.length) : Sends prepare uidlist i j slots ↔
    slots.filterMap (listedUid uidlist) <+: uidlist.drop i ∧ PreparedFrom prepare uidlist j slots := by
  induction slots generalizing i j with
  | nil => simp [Sends, sendLoop, RightFrom, PreparedFrom]
  | cons slot slots ih =>
    rw [preparedFrom_cons]
    cases hlisted : listedUid uidlist slot with
    | none =>
      rw [sends_skip hi hlisted, ih hi, filterMap_cons_none hlisted]
      simp
    | some uid =>
      obtain ⟨user, rfl, hu, rfl⟩ : ∃ user, slot = some user ∧
          (user.uid ∈ uidlist ∧ user.pipe = false) ∧ user.uid = uid := by
        cases slot with
        | none => simp [listedUid] at hlisted
        | some user =>
          refine ⟨user, rfl, ?_⟩
          simpa [listedUid] using hlisted
      rw [filterMap_cons_some hlisted, drop_eq_getElem_cons hi, cons_prefix_cons]
      by_cases huid : user.uid = uidlist[i]
      · cases hprep : prepare j with
        | error e => simp [not_sends_of_error hu hprep]
        | ok pkt =>
          rw [sends_queue hi hu huid hprep]
          split_ifs with hlast
          · rw [rightFrom_self, hlast, drop_length, prefix_nil]
            simpa [huid] using preparedFrom_of_nil
          · rw [ih (by omega)]
            simp [huid]
      · simp [huid, not_sends_of_ne hi hu huid]

end Lemmas

section Main
variable {Pkt : Type} {prepare : ℕ → Except E13 Pkt} {uidlist : List (BitVec 32)} {array : List (Option (User Pkt))}

theorem sendsToAll_eq : SendsToAll prepare uidlist array ↔ Sends prepare uidlist 0 0 array := by
  simp only [SendsToAll, Sends, requestSend, rightFrom_iff, Nat.zero_add]

theorem sends_nil {j : ℕ} : Sends prepare [] 0 j array ↔ ∀ slot ∈ array, slot = none := by
  induction array generalizing j with
  | nil => simp [Sends, sendLoop, RightFrom]
  | cons slot slots ih =>
    rw [forall_mem_cons]
    cases slot with
    | none =>
      rw [← ih (j := j + 1)]
      simp [Sends, sendLoop, RightFrom, RightSlot, Sent.after]
    | some user => simp [Sends, sendLoop]

/-- The packet reaches the users of the list exactly when the list has them in the order of the array,
`ilink_prepare_pkt` succeeds for each, and an empty list is only given while nobody is connected. -/
theorem sendsToAll_iff (hnodup : uidlist.Nodup)
    (hconn : ∀ uid ∈ uidlist, ∃ user, some user ∈ array ∧ user.uid = uid ∧ user.pipe = false) :
    SendsToAll prepare uidlist array ↔ array.filterMap (listedUid uidlist) = uidlist ∧
      PreparedFrom prepare uidlist 0 array ∧ (uidlist = [] → ∀ slot ∈ array, slot = none) := by
  rw [sendsToAll_eq]
  cases huids : uidlist with
  | nil =>
    rw [sends_nil]
    have hnil : ∀ slots : List (Option (User Pkt)), slots.filterMap (listedUid []) = [] := by
      intro slots
      rw [filterMap_eq_nil_iff]
      intro slot _
      cases slot <;> simp [listedUid]
    simp [hnil, preparedFrom_of_nil (hnil array)]
  | cons uid uids =>
    rw [← huids, sends_iff (by simp [huids])]
    have hall : uidlist ⊆ array.filterMap (listedUid uidlist) := by
      intro uid huid
      obtain ⟨user, hmem, rfl, hpipe⟩ := hconn uid huid
      exact mem_filterMap.2 ⟨_, hmem, by simp [listedUid, huid, hpipe]⟩
    constructor
    · rintro ⟨hpre, hprep⟩
      have hlen : uidlist.length ≤ (array.filterMap (listedUid uidlist)).length :=
        (subperm_of_subset hnodup hall).length_le
      exact ⟨hpre.eq_of_length_le hlen, hprep, fun hnil => by simp [hnil] at huids⟩
    · rintro ⟨heq, hprep, -⟩
      constructor
      · exact ⟨[], (append_nil _).trans heq⟩
      · exact hprep

end Main

def twoUsers : List (Option (User ℕ)) := [some ⟨1, false, []⟩, some ⟨2, false, []⟩]

theorem sendsToAll_iff_two : SendsToAll (fun _ => .ok 0) [1, 2] twoUsers :=
  (sendsToAll_iff (by decide) (by simp [twoUsers])).2
    ⟨rfl, fun _ _ _ _ => ⟨0, rfl⟩, fun hnil => by cases hnil⟩

/-- The other way round only the second user gets the packet. -/
theorem not_sendsToAll_swapped : ¬SendsToAll (fun _ => .ok 0) [2, 1] twoUsers := by
  rintro ⟨s, hs, -, hright⟩
  obtain rfl : Sent.mk [some ⟨1, false, []⟩, some ⟨2, false, [0]⟩] [1] (some .ok) = s :=
    some.inj hs
  have hfirst := hright 0 _ _ rfl rfl
  simp [RightSlot, User.queue] at hfirst

end Prj.Monet
