import Prj.Base.Trail
import Prj.Infolink.Packet

/-!
The send list of a link (`ilink_prepare_pkt` in `infolink/ilink_pkt.c` and `_ilink_send_pkt` in
`infolink/ilink_io.c`), over runs of the two with any answers of `malloc`, `select` and `send`.
-/
namespace Prj.Infolink.Packet
open Prj.Base Prj.Lib13 List Option
open Function

section Model
/-- The addresses but `NULL`. -/
abbrev Addr := Fin (2 ^ 32 - 1)

/-- `struct ilink_buf`; the `size` bytes from `buf` on are allocated. -/
structure IBuf where
  pos : UInt32
  bufsize : UInt32
  size : UInt32
  buf : List UInt8
  deriving DecidableEq, Repr

/-- The bytes from `buf` on. Only the allocated ones are still what was written to them. -/
def IBuf.held (b : IBuf) (behind : ℕ → UInt8) : List UInt8 :=
  b.buf.take b.size.toNat ++ fetch behind b.size.toNat (b.bufsize.toNat - b.size.toNat)

structure Timeval where
  sec : ℕ
  usec : ℕ
  deriving DecidableEq, Repr

structure Link where
  crypts : Crypts
  /-- `ILINK_FLAG_TIMEOUT` -/
  timeout : Bool
  sendTv : Timeval
  sendRemainTv : Timeval
  sentCallback : Bool
  first : Option Addr
  last : Option Addr
  n : UInt32

/-- A link, the nodes of its send list, and what has happened: the packets that were put to the list, the bytes
that `send` has taken and the packets that the callback has got. -/
structure World where
  link : Link
  mem : Addr → Option (Node Addr IBuf)
  prepared : List (List UInt8)
  accepted : List UInt8
  called : List (List UInt8)

inductive Ret
  | ok
  | next
  | done
  | empty
  | nomem
  | crypt (e : CryptError)
  | continue
  | syse
  | timeout
  | dc
  deriving DecidableEq, Repr

/-- Link a new node behind the others; `none` if a freed node is touched. -/
def World.push (w : World) (a : Addr) (b : IBuf) : Option World :=
  match w.link.first with
  | none =>
    some { w with
      link := { w.link with first := some a, last := some a, n := 1 }
      mem := update w.mem a (some ⟨b, none⟩)
      prepared := w.prepared ++ [b.buf] }
  | some _ => do
    let l ← w.link.last
    let nd ← w.mem l
    some { w with
      link := { w.link with last := some a, n := w.link.n + 1 }
      mem := update (update w.mem l (some ⟨nd.val, some a⟩)) a (some ⟨b, none⟩)
      prepared := w.prepared ++ [b.buf] }

/-- `ilink_prepare_pkt` with the answers of `malloc` for the node and for the buffer. -/
def preparePkt (crc32 : List UInt8 → UInt32) (data : Data) (type : UInt16) (flags : Flags) (node : Option Addr)
    (buf : Option (ℕ → UInt8)) (w : World) : Option (Ret × World) :=
  match node, buf with
  | none, _ | some _, none => some (.nomem, w)
  | some a, some bytes =>
    let p := ilinkPreparePkt crc32 w.link.crypts data type flags bytes
    match p.bufsize with
    | .error .nomem => some (.nomem, w)
    | .error (.crypt e) => some (.crypt e, w)
    | .ok bufsize => do
      let w ← w.push a ⟨0, bufsize, p.size, p.bytes bytes bufsize⟩
      some (.ok, w)

/-- The answer of `select`. `tv` is the time that it leaves. -/
inductive Select
  | failed (intr : Bool)
  | expired
  | ready (isSet : Bool) (tv : Timeval)

inductive Send
  | sent (n : ℕ)
  | failed (intr : Bool)

/-- The values 0, 1 and 2 of `has_timeout`. -/
inductive HasTimeout
  | no
  | call
  | link

/-- `ios` is `ios->ctl.send_time`, if `ios` is not `NULL`. -/
def hasTimeout (link : Link) (ios : Option UInt32) : HasTimeout :=
  if ios.any (· ≠ 0) then .call
  else if link.timeout = true ∧ link.sendTv ≠ ⟨0, 0⟩ then .link
  else .no

/-- `_ilink_tv2milli(tv)/1000`, where only the second term of the macro is divided. -/
def sendTime (tv : Timeval) : UInt32 := .ofNat (tv.sec * 1000 + tv.usec / 1000 / 1000)

def waitSend (link : Link) (ios : Option UInt32) (sel : Select) : Except Ret (Link × Option UInt32) :=
  match hasTimeout link ios, sel with
  | .no, _ => .ok (link, ios)
  | _, .failed true => .error .continue
  | _, .failed false => .error .syse
  | _, .expired | _, .ready false _ => .error .timeout
  | .call, .ready true tv => .ok (link, some (sendTime tv))
  | .link, .ready true tv => .ok ({ link with sendRemainTv := tv }, ios)

/-- `_ilink_send_pkt` after the answer of `send`, for the first node. `behind` is what is in the memory behind the
buffer. -/
def World.sendFirst (w : World) (a : Addr) (nd : Node Addr IBuf) (behind : ℕ → UInt8) : Send → Ret × World
  | .failed true => (.continue, w)
  | .failed false => (.dc, w)
  | .sent k =>
    let pos := nd.val.pos + .ofNat k
    let accepted := w.accepted ++ ((nd.val.held behind).drop nd.val.pos.toNat).take k
    if pos = nd.val.bufsize then
      (if nd.next.isSome then .next else .done, { w with
        link := { w.link with first := nd.next, n := w.link.n - 1 }
        mem := update w.mem a none
        accepted
        called := if w.link.sentCallback then w.called ++ [nd.val.held behind] else w.called })
    else (.ok, { w with mem := update w.mem a (some ⟨{ nd.val with pos }, nd.next⟩), accepted })

/-- `_ilink_send_pkt`, with `ios->ctl.send_time` as the call leaves it; `none` if a freed node is touched. -/
def ilinkSendPkt (ios : Option UInt32) (sel : Select) (snd : Send) (behind : ℕ → UInt8) (w : World) :
    Option (Ret × Option UInt32 × World) :=
  match w.link.first with
  | none => some (.empty, ios, w)
  | some a => do
    let nd ← w.mem a
    match waitSend w.link ios sel with
    | .error r => some (r, ios, w)
    | .ok (link, ios) =>
      let r := World.sendFirst { w with link } a nd behind snd
      some (r.1, ios, r.2)

inductive Event
  | prepare (data : Data) (type : UInt16) (flags : Flags) (node : Option Addr) (buf : Option (ℕ → UInt8))
  | send (ios : Option UInt32) (sel : Select) (snd : Send) (behind : ℕ → UInt8)

def step (crc32 : List UInt8 → UInt32) (w : World) : Event → Option World
  | .prepare data type flags node buf => (preparePkt crc32 data type flags node buf w).map (·.2)
  | .send ios sel snd behind => (ilinkSendPkt ios sel snd behind w).map (·.2.2)

/-- What the environment can do. A node gets an address that is free, a buffer finds room beside the data, and
`send` takes at least one byte and at most those it is given. -/
def Event.Possible (w : World) : Event → Prop
  | .prepare data _ _ node buf =>
    (∀ a, node = some a → w.mem a = none) ∧ (buf.isSome → data.bytes.length + data.pktSize.toNat ≤ 2 ^ 32)
  | .send _ _ (.sent k) _ =>
    ∀ a nd, w.link.first = some a → w.mem a = some nd → 0 < k ∧ k ≤ nd.val.bufsize.toNat - nd.val.pos.toNat
  | .send _ _ (.failed _) _ => True

def World.start (crypts : Crypts) (timeout : Bool) (sendTv sendRemainTv : Timeval) (sentCallback : Bool) : World where
  link := ⟨crypts, timeout, sendTv, sendRemainTv, sentCallback, none, none, 0⟩
  mem _ := none
  prepared := []
  accepted := []
  called := []

end Model

section Spec
/-- The packets whose bytes are all among the first `n` bytes. -/
def fullySent : List (List UInt8) → ℕ → List (List UInt8)
  | [], _ => []
  | p :: ps, n => if p.length ≤ n then p :: fullySent ps (n - p.length) else []

structure Good (w : World) : Prop where
  accepted_prefix : w.accepted <+: w.prepared.flatten
  n_eq : ∃ xs, Trail w.mem w.link.first xs none ∧ w.link.n.toNat = xs.length
  called_eq : w.called = if w.link.sentCallback then fullySent w.prepared w.accepted.length else []

/-- At each point of a run, and no call fails before its end. -/
def RunsWell (crc32 : List UInt8 → UInt32) : World → List Event → Prop
  | w, [] => Good w
  | w, e :: es => Good w ∧ (e.Possible w → ∃ w', step crc32 w e = some w' ∧ RunsWell crc32 w' es)

def Event.Fits (crc32 : List UInt8 → UInt32) (crypts : Crypts) : Event → Prop
  | .prepare data type flags _ (some bytes) => Contained crc32 crypts data type flags bytes
  | .prepare _ _ _ _ none | .send .. => True

end Spec

section Queue
variable {crc32 : List UInt8 → UInt32} {crypts : Crypts} {data : Data} {type : UInt16} {flags : Flags}
  {bytes behind mem : ℕ → UInt8} {w w' : World} {done ps : List (List UInt8)} {xs : List (Addr × IBuf)} {a : Addr}
  {b : IBuf} {bufsize pos : UInt32} {k insize : ℕ} {sel : Select} {snd : Send}

theorem fullySent_append {p : List UInt8} (hk : k < p.length) :
    fullySent (done ++ p :: ps) (done.flatten.length + k) = done := by
  induction done with
  | nil => simp [fullySent, hk]
  | cons q done ih =>
    have hsub : (q :: done).flatten.length + k - q.length = done.flatten.length + k := by simp; omega
    rw [cons_append, fullySent, hsub, ih]
    simp
    omega

theorem fullySent_all : fullySent done done.flatten.length = done := by
  induction done with
  | nil => rfl
  | cons q done ih => simpa [fullySent] using ih

/-- A buffer that is inside its allocation and is not yet sent. -/
structure IBuf.Whole (b : IBuf) : Prop where
  inside : b.bufsize ≤ b.size
  length_buf : b.buf.length = b.bufsize.toNat
  pos_lt : b.pos < b.bufsize

/-- The send list holds `xs`, and the packets `done` have been sent before them. -/
structure Queued (w : World) (done : List (List UInt8)) (xs : List (Addr × IBuf)) : Prop where
  trail : Trail w.mem w.link.first xs none
  last_eq : ∀ x ∈ xs.getLast?, w.link.last = some x.1
  n_eq : w.link.n.toNat = xs.length
  whole : ∀ x ∈ xs, x.2.Whole
  pos_tail : ∀ x ∈ xs.tail, x.2.pos = 0
  prepared_eq : w.prepared = done ++ xs.map (·.2.buf)
  accepted_eq : w.accepted = done.flatten ++ xs.head?.elim [] fun x => x.2.buf.take x.2.pos.toNat
  called_eq : w.called = if w.link.sentCallback then done else []

theorem IBuf.Whole.held_eq (h : b.Whole) : b.held behind = b.buf := by
  have hle : b.bufsize.toNat ≤ b.size.toNat := h.inside
  rw [held, Nat.sub_eq_zero_of_le hle, take_of_length_le (by rw [h.length_buf]; exact hle)]
  simp [fetch]

theorem Queued.good (h : Queued w done xs) : Good w := by
  refine ⟨?_, ⟨xs, h.trail, h.n_eq⟩, ?_⟩
  · rw [h.accepted_eq, h.prepared_eq, flatten_append]
    refine prefix_append_right_inj _ |>.2 ?_
    cases xs with
    | nil => simp
    | cons x xs => exact (List.take_prefix _ _).trans (prefix_append _ _)
  · rw [h.called_eq, h.prepared_eq, h.accepted_eq]
    congr 1
    cases xs with
    | nil =>
      simp only [head?_nil, elim_none, append_nil, map_nil]
      exact fullySent_all.symm
    | cons x xs =>
      have hwhole := h.whole x (by simp)
      have hpos : x.2.pos.toNat < x.2.buf.length := hwhole.length_buf ▸ hwhole.pos_lt
      simp only [head?_cons, elim_some, length_append, length_take, map_cons, Nat.min_eq_left hpos.le]
      rw [fullySent_append hpos]

theorem Queued.length_lt (h : Queued w done xs) (hfree : w.mem a = none) : xs.length + 1 < 2 ^ 32 := by
  have hnotin : a ∉ xs.map Prod.fst := fun hmem => by simpa [hfree] using h.trail.isSome_of_mem hmem
  have hcard := (nodup_cons.2 ⟨hnotin, h.trail.nodup⟩).length_le_card
  rw [Fintype.card_fin, length_cons, length_map] at hcard
  omega

theorem size_of_encryptInPlace {c : Crypt13} {r : ℕ × List UInt8}
    (hr : c.encryptInPlace mem insize = .ok r) (hpos : 0 < insize) (hle : insize ≤ sizeTop - 16) :
    0 < r.1 ∧ (r.1 = insize ∨ r.1 = r.2.length) := by
  have hblocks : ∀ w, w = 16 ∨ w = 8 → 0 < w * cryptblocks w insize % sizeTop := by
    unfold cryptblocks sizeTop at *
    rintro w (rfl | rfl) <;> split_ifs <;> omega
  unfold Crypt13.encryptInPlace at hr
  split at hr
  · cases hr
  cases halg : c.alg with
  | none =>
    simp only [halg, Except.ok.injEq] at hr
    subst hr
    exact ⟨hpos, .inl rfl⟩
  | aes =>
    have hlen := length_enc_total mem insize (.inl halg)
    simp only [halg, Except.ok.injEq] at hr hlen
    subst hr
    exact ⟨hblocks 16 (.inl rfl), .inr hlen.symm⟩
  | des3 =>
    have hlen := length_enc_total mem insize (.inr halg)
    simp only [halg, Except.ok.injEq] at hr hlen
    subst hr
    exact ⟨hblocks 8 (.inr rfl), .inr hlen.symm⟩
  | ntru =>
    cases hntru : c.keyed.ntruEncrypt (fetch mem 0 insize) with
    | none => simp [halg, hntru] at hr
    | some enc =>
      simp only [halg, hntru, Except.ok.injEq] at hr
      subst hr
      exact ⟨c.keyed.ntruEncLen_pos, .inr (c.keyed.length_ntruEncrypt _ _ hntru).symm⟩
  | des | rc4 | xtea => simp [halg] at hr

theorem whole_of_contained (hroom : data.bytes.length + data.pktSize.toNat ≤ 2 ^ 32)
    (hcontained : Contained crc32 crypts data type flags bytes)
    (hbufsize : (ilinkPreparePkt crc32 crypts data type flags bytes).bufsize = .ok bufsize) :
    (⟨0, bufsize, data.pktSize, (ilinkPreparePkt crc32 crypts data type flags bytes).bytes bytes bufsize⟩ :
      IBuf).Whole := by
  have hinside := (writesInside_iff crc32 crypts data type flags bytes).2 hcontained
  have hlt : data.bytes.length + 14 < 2 ^ 32 := by
    refine (hcontained.resolve_left fun heq => ?_).1
    simp [ilinkPreparePkt, data.pktSize_eq_zero heq] at hbufsize
  have hsize := data.toNat_pktSize hlt
  have hbounds : 0 < bufsize.toNat ∧ bufsize.toNat ≤ data.pktSize.toNat := by
    simp only [ilinkPreparePkt, if_neg (data.pktSize_ne_zero hlt)] at hinside hbufsize
    cases henc : (crypts.select flags).encryptInPlace (storeAll bytes (plainWrites crc32 data type flags))
        data.pktSize.toNat with
    | error e => simp [henc] at hbufsize
    | ok r =>
      obtain ⟨outsize, out⟩ := r
      obtain ⟨hpos, hout⟩ := size_of_encryptInPlace henc (by omega) (by unfold sizeTop; omega)
      simp only [henc, Except.ok.injEq] at hinside hbufsize
      have hle : outsize ≤ data.pktSize.toNat := by
        rcases hout with h | h
        · exact h.le
        · have hlen := hinside (0, out) (by simp)
          exact h.le.trans (by simpa using hlen)
      rw [← hbufsize, UInt32.toNat_ofNat_of_lt' (lt_of_le_of_lt hle data.pktSize.toNat_lt)]
      exact ⟨hpos, hle⟩
  exact ⟨hbounds.2, length_fetch .., hbounds.1⟩

theorem Queued.push (h : Queued w done xs) (hfree : w.mem a = none) (hb : b.Whole) (hpos : b.pos = 0) :
    ∃ w', w.push a b = some w' ∧ w'.link.crypts = w.link.crypts ∧ Queued w' done (xs ++ [(a, b)]) := by
  have hlt := h.length_lt hfree
  obtain ⟨htrail, hlast, hn, hwhole, htail, hprepared, haccepted, hcalled⟩ := h
  have hwhole' : ∀ x ∈ xs ++ [(a, b)], x.2.Whole := by
    simp only [forall_mem_append, forall_mem_singleton]
    exact ⟨hwhole, hb⟩
  have hprepared' : w.prepared ++ [b.buf] = done ++ (xs ++ [(a, b)]).map (·.2.buf) := by simp [hprepared]
  rcases eq_nil_or_concat xs with rfl | ⟨ys, ⟨l, c⟩, rfl⟩
  · have hfirst : w.link.first = none := htrail
    simp only [World.push, hfirst]
    refine ⟨_, rfl, rfl, ⟨rfl, none, by simp, rfl⟩, by simp, rfl, hwhole', by simp, hprepared', ?_, hcalled⟩
    simpa [hpos] using haccepted
  · rw [concat_eq_append] at *
    have hl : w.link.last = some l := hlast (l, c) (by simp)
    obtain ⟨q, hys, hq, next, hmem, hnext⟩ := trail_append.1 htrail
    obtain ⟨f, hfirst⟩ : ∃ f, w.link.first = some f := by
      cases ys with
      | nil => exact ⟨l, hys.trans hq⟩
      | cons y ys => exact ⟨y.1, hys.1⟩
    simp only [World.push, hfirst, hl, hmem, bind_eq_bind, bind_some]
    refine ⟨_, rfl, rfl, ?_, by simp, ?_, hwhole', ?_, hprepared', ?_, hcalled⟩
    · simpa [hfirst] using htrail.snoc hfree
    · rw [UInt32.toNat_add, hn]
      simpa using hlt
    · cases ys with
      | nil => simpa using hpos
      | cons y ys => simpa [hpos, or_imp, forall_and] using htail
    · cases ys with
      | nil | cons => simpa using haccepted

theorem waitSend_ok {link link' : Link} {ios ios' : Option UInt32}
    (h : waitSend link ios sel = .ok (link', ios')) : ∃ tv, link' = { link with sendRemainTv := tv } := by
  unfold waitSend at h
  split at h
  · exact ⟨link.sendRemainTv, by cases h; rfl⟩
  · cases h
  · cases h
  · cases h
  · cases h
  · exact ⟨link.sendRemainTv, by cases h; rfl⟩
  next tv _ => exact ⟨tv, by cases h; rfl⟩

theorem IBuf.Whole.take_add (h : b.Whole) (behind : ℕ → UInt8) (k : ℕ) :
    b.buf.take b.pos.toNat ++ ((b.held behind).drop b.pos.toNat).take k = b.buf.take (b.pos.toNat + k) := by
  rw [h.held_eq, List.take_add]

section
variable {next : Option Addr} (h : Queued w done ((a, b) :: xs)) (hmem : w.mem a = some ⟨b, next⟩)
include h hmem

theorem Queued.sendPart (hpos : pos.toNat = b.pos.toNat + k) (hlt : pos < b.bufsize) : Queued { w with
      mem := update w.mem a (some ⟨{ b with pos }, next⟩)
      accepted := w.accepted ++ ((b.held behind).drop b.pos.toNat).take k } done ((a, { b with pos }) :: xs) := by
  have hb : b.Whole := h.whole (a, b) (by simp)
  refine ⟨h.trail.set_head hmem, ?_, h.n_eq, ?_, h.pos_tail, h.prepared_eq, ?_, h.called_eq⟩
  · intro x hx
    cases xs with
    | nil =>
      obtain rfl : (a, { b with pos }) = x := by simpa using hx
      exact h.last_eq (a, b) (by simp)
    | cons y ys => exact h.last_eq x (by simpa using hx)
  · intro x hx
    rcases mem_cons.1 hx with rfl | hx
    · exact ⟨hb.inside, hb.length_buf, hlt⟩
    · exact h.whole x (mem_cons_of_mem _ hx)
  · have htake := hb.take_add behind k
    simp only [h.accepted_eq, head?_cons, elim_some, append_assoc, htake, hpos]

theorem Queued.sendRest (hall : b.pos.toNat + k = b.bufsize.toNat) : Queued { w with
      link := { w.link with first := next, n := w.link.n - 1 }
      mem := update w.mem a none
      accepted := w.accepted ++ ((b.held behind).drop b.pos.toNat).take k
      called := if w.link.sentCallback then w.called ++ [b.held behind] else w.called } (done ++ [b.buf]) xs := by
  have hb : b.Whole := h.whole (a, b) (by simp)
  have hn := h.n_eq
  refine ⟨h.trail.tail_update hmem _, ?_, ?_, fun x hx => h.whole x (by simp [hx]), ?_, ?_, ?_, ?_⟩
  · exact fun x hx => h.last_eq x (mem_getLast?_cons hx)
  · have hle : (1 : UInt32) ≤ w.link.n := by
      rw [UInt32.le_iff_toNat_le, hn]
      simp
    rw [UInt32.toNat_sub_of_le _ _ hle, hn]
    simp
  · exact fun x hx => h.pos_tail x (mem_of_mem_tail hx)
  · simpa using h.prepared_eq
  · have htake := hb.take_add behind k
    have hpos : (xs.head?.elim [] fun x => x.2.buf.take x.2.pos.toNat) = [] := by
      cases xs with
      | nil => rfl
      | cons y ys => simp [h.pos_tail y (by simp)]
    simp only [h.accepted_eq, head?_cons, elim_some, append_assoc, htake, hall, hpos,
      flatten_append, append_nil, flatten_singleton]
    rw [take_of_length_le (by rw [hb.length_buf])]
  · simp only [h.called_eq, hb.held_eq]
    split <;> rfl

end

theorem Queued.sendFirst {next : Option Addr} (behind : ℕ → UInt8)
    (h : Queued w done ((a, b) :: xs)) (hmem : w.mem a = some ⟨b, next⟩)
    (hsnd : ∀ k, snd = .sent k → k ≤ b.bufsize.toNat - b.pos.toNat) :
    (w.sendFirst a ⟨b, next⟩ behind snd).2.link.crypts = w.link.crypts ∧
      ∃ done xs, Queued (w.sendFirst a ⟨b, next⟩ behind snd).2 done xs := by
  cases snd with
  | failed intr => cases intr <;> exact ⟨rfl, _, _, h⟩
  | sent k =>
    have hle := hsnd k rfl
    have hlt := b.bufsize.toNat_lt
    have hposlt : b.pos.toNat < b.bufsize.toNat := (h.whole (a, b) (by simp)).pos_lt
    have hpos : (b.pos + .ofNat k).toNat = b.pos.toNat + k := by
      rw [UInt32.toNat_add, UInt32.toNat_ofNat_of_lt' (show k < 2 ^ 32 by omega)]
      exact Nat.mod_eq_of_lt (by omega)
    unfold World.sendFirst
    dsimp only
    split
    next heq => exact ⟨rfl, _, _, h.sendRest hmem (by rw [← hpos, heq])⟩
    next hne =>
      have hne' : (b.pos + .ofNat k).toNat ≠ b.bufsize.toNat := fun heq => hne (UInt32.toNat_inj.1 heq)
      refine ⟨rfl, _, _, h.sendPart hmem hpos ?_⟩
      rw [UInt32.lt_iff_toNat_lt]
      omega

theorem Queued.send {ios : Option UInt32} (h : Queued w done xs)
    (hpossible : (Event.send ios sel snd behind).Possible w) :
    ∃ r, ilinkSendPkt ios sel snd behind w = some r ∧ r.2.2.link.crypts = w.link.crypts ∧
      ∃ done xs, Queued r.2.2 done xs := by
  cases xs with
  | nil =>
    have hfirst : w.link.first = none := h.trail
    exact ⟨(.empty, ios, w), by simp [ilinkSendPkt, hfirst], rfl, done, [], h⟩
  | cons x xs =>
    obtain ⟨a, b⟩ := x
    obtain ⟨hfirst, next, hmem, hrest⟩ := h.trail
    cases hwait : waitSend w.link ios sel with
    | error r => exact ⟨(r, ios, w), by simp [ilinkSendPkt, hfirst, hmem, hwait], rfl, done, _, h⟩
    | ok r =>
      obtain ⟨link, ios'⟩ := r
      obtain ⟨tv, htv⟩ := waitSend_ok hwait
      have hremain : Queued { w with link } done ((a, b) :: xs) := htv ▸ { h with }
      have hsnd : ∀ k, snd = .sent k → k ≤ b.bufsize.toNat - b.pos.toNat := by
        rintro k rfl
        exact (hpossible a ⟨b, next⟩ hfirst hmem).2
      obtain ⟨hcrypts, hqueued⟩ := hremain.sendFirst behind hmem hsnd
      refine ⟨_, by simp only [ilinkSendPkt, hfirst, hmem, hwait, bind_eq_bind, bind_some]; rfl, ?_, hqueued⟩
      rw [hcrypts, htv]

theorem Queued.prepare {node : Option Addr} {buf : Option (ℕ → UInt8)} (h : Queued w done xs)
    (hpossible : (Event.prepare data type flags node buf).Possible w)
    (hfits : (Event.prepare data type flags node buf).Fits crc32 w.link.crypts) :
    ∃ r, preparePkt crc32 data type flags node buf w = some r ∧ r.2.link.crypts = w.link.crypts ∧
      ∃ done xs, Queued r.2 done xs := by
  obtain ⟨hfree, hroom⟩ := hpossible
  cases node with
  | none => exact ⟨(.nomem, w), by simp [preparePkt], rfl, _, _, h⟩
  | some a =>
    cases buf with
    | none => exact ⟨(.nomem, w), by simp [preparePkt], rfl, _, _, h⟩
    | some bytes =>
      cases hbufsize : (ilinkPreparePkt crc32 w.link.crypts data type flags bytes).bufsize with
      | error e =>
        cases e with
        | nomem => exact ⟨(.nomem, w), by simp [preparePkt, hbufsize], rfl, _, _, h⟩
        | crypt e => exact ⟨(.crypt e, w), by simp [preparePkt, hbufsize], rfl, _, _, h⟩
      | ok bufsize =>
        have hwhole := whole_of_contained (hroom rfl) hfits hbufsize
        obtain ⟨w', hpush, hcrypts, hqueued⟩ := h.push (hfree a rfl) hwhole rfl
        refine ⟨(.ok, w'), ?_, hcrypts, _, _, hqueued⟩
        simp only [preparePkt, hbufsize, size_ilinkPreparePkt, hpush, bind_eq_bind, bind_some]

theorem Queued.runsWell (events : List Event) (h : Queued w done xs)
    (hfits : ∀ e ∈ events, e.Fits crc32 w.link.crypts) : RunsWell crc32 w events := by
  induction events generalizing w done xs with
  | nil => exact h.good
  | cons e events ih =>
    refine ⟨h.good, fun hpossible => ?_⟩
    obtain ⟨w', hstep, hcrypts, done', xs', h'⟩ : ∃ w', step crc32 w e = some w' ∧
        w'.link.crypts = w.link.crypts ∧ ∃ done xs, Queued w' done xs := by
      cases e with
      | prepare data type flags node buf =>
        obtain ⟨r, hr, hqueued⟩ := h.prepare hpossible (hfits _ (by simp))
        exact ⟨r.2, by rw [step, hr, map_some], hqueued⟩
      | send ios sel snd behind =>
        obtain ⟨r, hr, hqueued⟩ := h.send hpossible
        exact ⟨r.2.2, by rw [step, hr, map_some], hqueued⟩
    exact ⟨w', hstep, ih h' fun e he => hcrypts ▸ hfits e (by simp [he])⟩

/-- Along every run whose packets stay inside their buffers, `send` takes the bytes of the packets in their order,
`send_list.n` is the length of the list, and the callback gets each packet that is sent, once and in order. -/
theorem ilinkSendPkt_runsWell (crc32 : List UInt8 → UInt32) (crypts : Crypts) (timeout : Bool)
    (sendTv sendRemainTv : Timeval) (sentCallback : Bool) (events : List Event)
    (hfits : ∀ e ∈ events, e.Fits crc32 crypts) :
    RunsWell crc32 (.start crypts timeout sendTv sendRemainTv sentCallback) events := by
  have hstart : Queued (.start crypts timeout sendTv sendRemainTv sentCallback) [] [] := by
    refine ⟨rfl, by simp, rfl, by simp, by simp, rfl, rfl, ?_⟩
    exact (ite_self _).symm
  exact hstart.runsWell events hfits

/-- A packet of one byte, sent in two parts with an interrupt between them, on a link without ciphers. -/
theorem ilinkSendPkt_runsWell_oneByte : RunsWell (fun _ => 0)
    (.start ⟨⟨true, .none, reverseKeyed⟩, ⟨true, .none, reverseKeyed⟩⟩ false ⟨0, 0⟩ ⟨0, 0⟩ true)
    [.prepare ⟨[7], by decide⟩ 256 ⟨false, false, false⟩ (some ⟨0, by decide⟩) (some fun _ => 0),
      .send none .expired (.sent 5) fun _ => 0, .send none .expired (.failed true) fun _ => 0,
      .send none .expired (.sent 10) fun _ => 0] := by
  refine ilinkSendPkt_runsWell _ _ _ _ _ _ _ ?_
  simp only [forall_mem_cons, not_mem_nil, false_imp_iff, implies_true, and_true, Event.Fits]
  exact .inr ⟨by decide, fun _ => trivial⟩

def aesWorld : World := .start aesLink false ⟨0, 0⟩ ⟨0, 0⟩ true

theorem length_nil_lt : ([] : List UInt8).length < 2 ^ 32 := by decide

def noDataPkt : Event :=
  .prepare ⟨[], length_nil_lt⟩ 256 ⟨false, false, false⟩ (some ⟨0, by decide⟩) (some fun _ => 0)

/-- The memory behind the buffer has been used for something else. -/
def sendAll : Event := .send none .expired (.sent 16) fun _ => 255

/-- The last two bytes of the packet are behind its buffer. When they are sent they are not what was written. -/
theorem not_runsWell_aes : ¬ RunsWell (fun _ => 0) aesWorld [noDataPkt, sendAll] := by
  have hleft : (step (fun _ => 0) aesWorld noDataPkt).map (fun w =>
      (w.link.first.bind w.mem).map fun nd => nd.val.bufsize.toNat - nd.val.pos.toNat) = some (some 16) := by
    decide +kernel
  have hbytes : ((step (fun _ => 0) aesWorld noDataPkt).bind fun w => step (fun _ => 0) w sendAll).map (fun w =>
      decide (w.accepted <+: w.prepared.flatten)) = some false := by
    decide +kernel
  rintro ⟨-, hprepare⟩
  obtain ⟨w, hw, -, hsend⟩ := hprepare ⟨by simp [aesWorld, World.start], by decide⟩
  rw [hw, map_some, some_inj] at hleft
  rw [hw, bind_some] at hbytes
  obtain ⟨w', hw', hgood⟩ := hsend fun a nd ha hnd => by
    rw [ha, bind_some, hnd, map_some, some_inj] at hleft
    omega
  rw [hw', map_some, some_inj, decide_eq_false_iff_not] at hbytes
  exact hbytes hgood.accepted_prefix

end Queue
end Prj.Infolink.Packet
