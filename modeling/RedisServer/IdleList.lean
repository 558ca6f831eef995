import RedisServer.EventLoop

/-!
# The idle list of the event loop

`IdleList s order` says that the ring of `g_data.idle_list` leads through the connections `order`,
that these are the live ones, those of `fd2conn`, and that they stand in the order of their
`idle_start`.  The operations of DList.cpp are writes of links only (`relink`), so that what they
do to the list is what `Rings` says about rings.

Results:
* `Server.step_spec` — every event keeps the invariant, and nothing in accepting, moving, closing
  and evicting can fail;
* `Server.evictIdle_exact` — what a pass of `process_timers` closes;
* `Server.idle_list_and_eviction` — both, for every run;
* `Server.eviction_wraps` — what happens when `idle_start` plus the timeout passes 2^64.
-/

set_option autoImplicit false

namespace RedisServer

open Runs Rings

/-- A connection, its links aside. -/
def LinkedConn.unlinked (c : LinkedConn) : LinkedConn := { c with idleList := {} }

namespace Server

variable {σ : Type} {s s' : Server σ} {L : ListNode → DList} {n : ListNode} {p : Ptr}
  {xs ys : List Ptr}

/-! ## Links -/

def links (s : Server σ) : ListNode → DList
  | .head => s.idleList
  | .conn p => ((s.conns p).map LinkedConn.idleList).getD {}

/-- The server with other links. -/
def relink (s : Server σ) (L : ListNode → DList) : Server σ :=
  { s with
    idleList := L .head
    conns := fun p => (s.conns p).map fun c => { c with idleList := L (.conn p) } }

/-- The `DList` is not part of freed memory. -/
def Live (s : Server σ) : ListNode → Prop
  | .head => True
  | .conn p => (s.conns p).isSome

theorem relink_links (s : Server σ) : s.relink s.links = s := by
  have hc : (fun p => (s.conns p).map fun c => { c with idleList := s.links (.conn p) }) = s.conns := by
    funext p
    cases h : s.conns p with
    | none => rfl
    | some c => simp [links, h]
  unfold relink
  rw [hc]
  rfl

theorem links_relink (hn : s.Live n) : (s.relink L).links n = L n := by
  cases n with
  | head => rfl
  | conn p =>
    obtain ⟨c, hc⟩ := Option.isSome_iff_exists.mp hn
    simp [links, relink, hc]

theorem node_relink (hn : s.Live n) : (s.relink L).node n = .ok (L n) := by
  cases n with
  | head => rfl
  | conn p =>
    obtain ⟨c, hc⟩ := Option.isSome_iff_exists.mp hn
    simp [node, relink, Store.read, hc]

theorem setNode_relink (hn : s.Live n) (d : DList) :
    (s.relink L).setNode n d = .ok (s.relink (Function.update L n d)) := by
  cases n with
  | head =>
    unfold setNode relink
    simp
  | conn p =>
    obtain ⟨c, hc⟩ := Option.isSome_iff_exists.mp hn
    have hconns : ((s.relink L).conns.modify p fun c => { c with idleList := d }) =
        .ok (s.relink (Function.update L (.conn p) d)).conns := by
      rw [Store.modify_of (a := { c with idleList := L (.conn p) }) _ (by simp [relink, hc])]
      congr 1
      funext q
      by_cases hq : q = p
      · subst hq; simp [relink, hc]
      · rw [Store.write_of_ne _ _ hq]
        simp [relink, Function.update_of_ne (fun h => hq (ListNode.conn.inj h))]
    unfold setNode
    dsimp only
    rw [hconns]
    simp [relink]

theorem setNext_relink (hn : s.Live n) (v : Option ListNode) :
    (s.relink L).setNext n v = .ok (s.relink (Rings.setNext L n v)) := by
  unfold setNext
  rw [node_relink hn, ok_bind, setNode_relink hn]
  rfl

theorem setPrev_relink (hn : s.Live n) (v : Option ListNode) :
    (s.relink L).setPrev n v = .ok (s.relink (Rings.setPrev L n v)) := by
  unfold setPrev
  rw [node_relink hn, ok_bind, setNode_relink hn]
  rfl

theorem dlistDetach_relink {p q : ListNode} (hn : s.Live n) (hp : s.Live p) (hq : s.Live q)
    (hprev : (L n).prev = some p) (hnext : (L n).next = some q) :
    (s.relink L).dlistDetach n =
      .ok (s.relink (Rings.setPrev (Rings.setNext L p (some q)) q (some p))) := by
  unfold dlistDetach
  rw [node_relink hn, ok_bind, hprev, hnext]
  simp only [follow, ok_bind]
  rw [setNext_relink hp, ok_bind, setPrev_relink hq]

theorem listInsertBefore_relink {target p : ListNode} (ht : s.Live target) (hn : s.Live n)
    (hp : s.Live p) (hprev : (L target).prev = some p) :
    (s.relink L).listInsertBefore target n =
      .ok (s.relink (Rings.setPrev (Rings.setNext (Rings.setPrev (Rings.setNext L p (some n)) n
        (some p)) n (some target)) target (some n))) := by
  unfold listInsertBefore
  rw [node_relink ht, ok_bind, hprev]
  simp only [follow, ok_bind]
  rw [setNext_relink hp, ok_bind, setPrev_relink hn, ok_bind, setNext_relink hn, ok_bind,
    setPrev_relink ht]

/-- `dlist_detach` on the ring. -/
theorem dlistDetach_ring (hl : ∀ m ∈ ListNode.head :: (xs ++ p :: ys).map .conn, s.Live m)
    (hr : Ring L .head ((xs ++ p :: ys).map .conn)) :
    ∃ L', (s.relink L).dlistDetach (.conn p) = .ok (s.relink L') ∧
      Ring L' .head ((xs ++ ys).map .conn) := by
  rw [List.map_append, List.map_cons] at hr hl
  obtain ⟨a, b, hprev, hnext, ha, hb, hr'⟩ := hr.unlink
  rw [← List.map_append] at hr'
  have hla := hl a (by simp only [List.mem_cons, List.mem_append] at ha ⊢; tauto)
  have hlb := hl b (by simp only [List.mem_cons, List.mem_append] at hb ⊢; tauto)
  exact ⟨_, dlistDetach_relink (hl _ (by simp)) hla hlb hprev hnext, hr'⟩

/-- `list_insert_before(&g_data.idle_list, …)` on the ring. -/
theorem listInsertBefore_ring (hl : ∀ m ∈ ListNode.head :: (xs ++ [p]).map .conn, s.Live m)
    (hr : Ring L .head (xs.map .conn)) (hp : p ∉ xs) :
    ∃ L', (s.relink L).listInsertBefore .head (.conn p) = .ok (s.relink L') ∧
      Ring L' .head ((xs ++ [p]).map .conn) := by
  rw [List.map_append] at hl ⊢
  obtain ⟨a, hprev, ha, hr'⟩ := hr.append (n := .conn p) (by simpa using hp)
  have hla := hl a (by simp only [List.mem_cons, List.mem_append] at ha ⊢; tauto)
  exact ⟨_, listInsertBefore_relink (hl _ (by simp)) (hl _ (by simp)) hla hprev, hr'⟩

/-! ## The invariant -/

/-- `conn->idle_start` -/
def idleStart (s : Server σ) (p : Ptr) : UInt64 :=
  ((s.conns p).map LinkedConn.idleStart).getD 0

/-- Connections, descriptors and times, the links aside. -/
structure Kept (s : Server σ) (order : List Ptr) : Prop where
  live : ∀ p, p ∈ order ↔ (s.conns p).isSome
  stored : ∀ fd p, s.fd2conn[fd]? = some (some p) ↔ ∃ c, s.conns p = some c ∧ c.fd = fd
  sorted : order.Pairwise fun p q => s.idleStart p ≤ s.idleStart q
  past : ∀ p, s.idleStart p ≤ s.clock
  opened : ∀ p c, s.conns p = some c → c.fd ∈ s.openFds
  once : s.openFds.Nodup
  fresh : ∀ p, (s.conns p).isSome → p < s.next

/-- The ring of `g_data.idle_list` goes through the connections `order`. -/
structure IdleList (s : Server σ) (order : List Ptr) : Prop extends Kept s order where
  ring : Ring s.links .head (order.map .conn)

/-- No connection is marked for deletion. -/
def Open (s : Server σ) : Prop := ∀ p c, s.conns p = some c → c.conn.state ≠ .STATE_END

variable {order gone : List Ptr} {c : LinkedConn} {now : UInt64}

theorem relink_conns {c' : LinkedConn} (h : (s.relink L).conns p = some c') :
    ∃ c, s.conns p = some c ∧ c' = { c with idleList := L (.conn p) } := by
  obtain ⟨c, hc, rfl⟩ := Option.map_eq_some_iff.mp h
  exact ⟨c, hc, rfl⟩

theorem idleStart_relink (p : Ptr) : (s.relink L).idleStart p = s.idleStart p := by
  unfold idleStart relink
  cases h : s.conns p <;> simp [h]

/-- Writes of links keep everything else. -/
theorem Kept.relink (h : Kept s order) (L : ListNode → DList) : Kept (s.relink L) order where
  live p := by
    rw [h.live p]
    show _ ↔ ((s.conns p).map _).isSome
    rw [Option.isSome_map]
  stored fd p := by
    show s.fd2conn[fd]? = _ ↔ _
    rw [h.stored fd p]
    constructor
    · rintro ⟨c, hc, hfd⟩
      exact ⟨{ c with idleList := L (.conn p) }, by simp [Server.relink, hc], hfd⟩
    · rintro ⟨c', hc', hfd⟩
      obtain ⟨c, hc, rfl⟩ := relink_conns hc'
      exact ⟨c, hc, hfd⟩
  sorted := by
    simp only [idleStart_relink]
    exact h.sorted
  past p := by
    rw [idleStart_relink]
    exact h.past p
  opened p c' hc' := by
    obtain ⟨c, hc, rfl⟩ := relink_conns hc'
    exact h.opened p c hc
  once := h.once
  fresh p hp := h.fresh p (by simpa [Server.relink] using hp)

theorem Open.relink (h : s.Open) (L : ListNode → DList) : (s.relink L).Open := by
  intro q c' hc'
  obtain ⟨c, hc, rfl⟩ := relink_conns hc'
  exact h q c hc

theorem IdleList.nodup (h : IdleList s order) : order.Nodup :=
  (List.nodup_cons.mp h.ring.nodup).2.of_map _

/-- Two live connections have different descriptors. -/
theorem Kept.fd_inj (h : Kept s order) {p q : Ptr} {c d : LinkedConn} (hp : s.conns p = some c)
    (hq : s.conns q = some d) (hfd : c.fd = d.fd) : p = q := by
  have h₁ := (h.stored c.fd p).mpr ⟨c, hp, rfl⟩
  have h₂ := (h.stored c.fd q).mpr ⟨d, hq, hfd.symm⟩
  exact Option.some.inj (Option.some.inj (h₁.symm.trans h₂))

/-- The nodes of the ring are live. -/
theorem Kept.live_of_mem (h : Kept s order) (hn : n ∈ .head :: order.map .conn) : s.Live n := by
  rcases List.mem_cons.mp hn with rfl | hn
  · trivial
  · obtain ⟨p, hp, rfl⟩ := List.mem_map.mp hn
    exact (h.live p).mp hp

theorem IdleList.relink (h : Kept s order) (hr : Ring L .head (order.map .conn)) :
    IdleList (s.relink L) order where
  toKept := h.relink L
  ring := hr.congr fun _ hn => links_relink (h.live_of_mem hn)

/-! ## Closing -/

/-- From `s` to `s'` the connections `gone` were closed: they are out of `fd2conn`, their
descriptors are closed, their memory is freed.  Of the others only links have changed. -/
structure Closed (s : Server σ) (gone : List Ptr) (s' : Server σ) : Prop where
  conns : ∀ p, (s'.conns p).map LinkedConn.unlinked =
    if p ∈ gone then none else (s.conns p).map LinkedConn.unlinked
  fd2conn : s'.fd2conn = s.fd2conn.map (Option.filter fun p => decide (p ∉ gone))
  openFds : ∀ fd, fd ∈ s'.openFds ↔
    fd ∈ s.openFds ∧ ∀ p ∈ gone, ∀ c, s.conns p = some c → c.fd ≠ fd
  rest : s'.data = s.data ∧ s'.next = s.next ∧ s'.clock = s.clock

/-- The server without the connection at `p`, its links aside. -/
def without (s : Server σ) (p : Ptr) (fd : Nat) : Server σ :=
  { s with
    conns := s.conns.free p
    fd2conn := s.fd2conn.set fd none
    openFds := s.openFds.erase fd }

theorem idleStart_without {q : Ptr} {fd : Nat} (hq : q ≠ p) :
    (s.without p fd).idleStart q = s.idleStart q := by
  unfold idleStart without
  dsimp only
  rw [Store.free_of_ne _ hq]

theorem Kept.without (h : Kept s (xs ++ p :: ys))
    (hnd : (xs ++ p :: ys).Nodup) (hc : s.conns p = some c) : Kept (s.without p c.fd) (xs ++ ys) := by
  have hmem : ∀ q, q ∈ xs ++ ys ↔ q ∈ xs ++ p :: ys ∧ q ≠ p := by
    intro q
    have hp : p ∉ xs ++ ys := (List.nodup_middle.mp hnd |> List.nodup_cons.mp).1
    constructor
    · intro hq
      refine ⟨?_, fun heq => hp (heq ▸ hq)⟩
      simp only [List.mem_append, List.mem_cons] at hq ⊢
      tauto
    · rintro ⟨hq, hne⟩
      simp only [List.mem_append, List.mem_cons] at hq ⊢
      tauto
  have hconns : ∀ q d, (s.without p c.fd).conns q = some d ↔ q ≠ p ∧ s.conns q = some d :=
    fun q d => Store.free_eq_some
  refine ⟨?_, ?_, ?_, ?_, ?_, h.once.erase _, ?_⟩
  · intro q
    rw [hmem, h.live q, Option.isSome_iff_exists, Option.isSome_iff_exists]
    simp only [hconns]
    tauto
  · intro fd q
    show (s.fd2conn.set c.fd none)[fd]? = _ ↔ _
    simp only [hconns]
    by_cases hfd : fd = c.fd
    · subst hfd
      rw [List.getElem?_set_self']
      constructor
      · intro hx
        cases hg : s.fd2conn[c.fd]? <;> rw [hg] at hx <;> cases hx
      · rintro ⟨d, ⟨hne, hd⟩, hfd⟩
        exact absurd (h.fd_inj hd hc hfd) hne
    · rw [List.getElem?_set_ne (Ne.symm hfd), h.stored]
      constructor
      · rintro ⟨d, hd, hdfd⟩
        refine ⟨d, ⟨?_, hd⟩, hdfd⟩
        intro heq
        rw [heq, hc] at hd
        cases hd
        exact hfd hdfd.symm
      · rintro ⟨d, ⟨-, hd⟩, hdfd⟩
        exact ⟨d, hd, hdfd⟩
  · have hsub : (xs ++ ys).Sublist (xs ++ p :: ys) := (List.sublist_cons_self p ys).append_left xs
    apply (h.sorted.sublist hsub).imp_of_mem
    intro a b ha hb hab
    rw [idleStart_without ((hmem a).mp ha).2, idleStart_without ((hmem b).mp hb).2]
    exact hab
  · intro q
    by_cases hq : q = p
    · subst hq
      show ((s.conns.free q q).map _).getD 0 ≤ _
      rw [Store.free_self]
      exact UInt64.zero_le
    · rw [idleStart_without hq]
      exact h.past q
  · intro q d hd
    obtain ⟨hne, hd⟩ := (hconns q d).mp hd
    refine (List.mem_erase_of_ne ?_).mpr (h.opened q d hd)
    intro hfd
    exact hne (h.fd_inj hd hc hfd)
  · intro q hq
    obtain ⟨d, hd⟩ := Option.isSome_iff_exists.mp hq
    exact h.fresh q (Option.isSome_iff_exists.mpr ⟨d, ((hconns q d).mp hd).2⟩)

theorem closed_without (h : Kept s order) (hc : s.conns p = some c) :
    Closed s [p] (s.without p c.fd) := by
  have hstored := (h.stored c.fd p).mpr ⟨c, hc, rfl⟩
  refine ⟨?_, ?_, ?_, rfl, rfl, rfl⟩
  · intro q
    by_cases hq : q = p
    · subst hq; simp [Server.without]
    · simp [Server.without, Store.free_of_ne _ hq, hq]
  · show s.fd2conn.set c.fd none = _
    refine List.ext_getElem? ?_
    intro fd
    rw [List.getElem?_map]
    by_cases hfd : fd = c.fd
    · subst hfd
      rw [List.getElem?_set_self (List.getElem?_eq_some_iff.mp hstored).1, hstored]
      simp [Option.filter]
    · rw [List.getElem?_set_ne (Ne.symm hfd)]
      rcases hx : s.fd2conn[fd]? with _ | _ | q
      · rfl
      · rfl
      · obtain ⟨d, hd, hdfd⟩ := (h.stored fd q).mp hx
        have hq : q ≠ p := by
          rintro rfl
          cases hc.symm.trans hd
          exact hfd hdfd.symm
        simp [Option.filter, hq]
  · intro fd
    show fd ∈ s.openFds.erase c.fd ↔ _
    rw [h.once.mem_erase_iff, and_comm]
    simp [hc, eq_comm]

theorem Closed.relink (h : Closed s gone s') (L : ListNode → DList) : Closed s gone (s'.relink L) where
  conns q := by
    rw [← h.conns q]
    unfold Server.relink LinkedConn.unlinked
    dsimp only
    rw [Option.map_map]
    rfl
  fd2conn := h.fd2conn
  openFds := h.openFds
  rest := h.rest

/-- **Closing** a connection takes it out of the list and leaves the others in their order. -/
theorem drop_spec (h : IdleList s (xs ++ p :: ys)) :
    ∃ s', s.drop p = .ok s' ∧ IdleList s' (xs ++ ys) ∧ Closed s [p] s' := by
  obtain ⟨c, hc⟩ := Option.isSome_iff_exists.mp ((h.live p).mp (by simp))
  have hlt : c.fd < s.fd2conn.length :=
    (List.getElem?_eq_some_iff.mp ((h.stored c.fd p).mpr ⟨c, hc, rfl⟩)).1
  -- the links do not depend on `fd2conn` and the open descriptors
  let s₁ : Server σ :=
    { s with fd2conn := s.fd2conn.set c.fd none, openFds := s.openFds.erase c.fd }
  have hl : ∀ m ∈ ListNode.head :: (xs ++ p :: ys).map .conn, s₁.Live m := fun _ hm =>
    h.live_of_mem hm
  obtain ⟨L', hdetach, hring⟩ := dlistDetach_ring hl h.ring
  rw [show s₁.relink s.links = s₁ from relink_links s₁] at hdetach
  have hfree : { s₁.relink L' with conns := (s₁.relink L').conns.free p } =
      (s.without p c.fd).relink L' := by
    have hconns : (s₁.relink L').conns.free p = ((s.without p c.fd).relink L').conns := by
      funext q
      by_cases hq : q = p
      · subst hq; simp [Server.relink, Server.without]
      · rw [Store.free_of_ne _ hq]
        simp [Server.relink, Server.without, Store.free_of_ne _ hq, s₁]
    rw [hconns]
    rfl
  refine ⟨_, ?_, IdleList.relink (h.toKept.without h.nodup hc) hring,
    (closed_without h.toKept hc).relink L'⟩
  unfold drop
  rw [Store.read_of hc, ok_bind, if_neg (by omega)]
  show (s₁.dlistDetach (.conn p) >>= fun s => _) = _
  rw [hdetach, ok_bind, hfree]
  rfl

/-! ## Accepting and moving -/

theorem idleStart_of (hc : s.conns p = some c) : s.idleStart p = c.idleStart := by
  simp [idleStart, hc]

theorem idleStart_congr {q : Ptr} (h : s'.conns q = s.conns q) : s'.idleStart q = s.idleStart q := by
  simp [idleStart, h]

/-- Another value at a live connection, with the same descriptor and perhaps a new place. -/
theorem Kept.write {xs' : List Ptr} (c' : LinkedConn) (h : Kept s order) (hc : s.conns p = some c)
    (hfd : c'.fd = c.fd) (hperm : xs'.Perm order) (d : σ) :
    let t := { s with conns := s.conns.write p c', data := d, clock := now }
    (∀ q, t.idleStart q ≤ now) → xs'.Pairwise (fun a b => t.idleStart a ≤ t.idleStart b) →
    Kept t xs' := by
  intro t hpast hsorted
  have hsome : ∀ q, (t.conns q).isSome ↔ (s.conns q).isSome := by
    intro q
    by_cases hq : q = p
    · subst hq; simp [t, hc]
    · simp [t, Store.write_of_ne _ _ hq]
  have hfds : ∀ q fd, (∃ e, t.conns q = some e ∧ e.fd = fd) ↔ ∃ e, s.conns q = some e ∧ e.fd = fd :=
    fun q fd => by
      by_cases hq : q = p
      · subst hq; simp [t, hc, hfd]
      · simp [t, Store.write_of_ne _ _ hq]
  refine ⟨?_, ?_, hsorted, hpast, ?_, h.once, ?_⟩
  · intro q
    rw [hsome, hperm.mem_iff, h.live]
  · intro fd q
    rw [hfds]
    exact h.stored fd q
  · intro q e he
    obtain ⟨e', he', hfd'⟩ := (hfds q e.fd).mp ⟨e, he, rfl⟩
    rw [← hfd']
    exact h.opened q e' he'
  · intro q hq
    exact h.fresh q ((hsome q).mp hq)

theorem links_write (now : UInt64) (c' : LinkedConn) (hc : s.conns p = some c) (hl : c'.idleList = c.idleList)
    (d : σ) : { s with conns := s.conns.write p c', data := d, clock := now }.links = s.links := by
  funext n
  cases n with
  | head => rfl
  | conn q =>
    by_cases hq : q = p
    · subst hq; simp [links, hc, hl]
    · simp [links, Store.write_of_ne _ _ hq]

/-- **Moving** a connection to the end of the list, as `connection_io` does it. -/
theorem move_spec (h : IdleList s (xs ++ p :: ys)) (hc : s.conns p = some c) (hnow : s.clock ≤ now) :
    let t := { s with conns := s.conns.write p { c with idleStart := now }, clock := now }
    ∃ t' L', t.dlistDetach (.conn p) = .ok t' ∧
      t'.listInsertBefore .head (.conn p) = .ok (t.relink L') ∧
      IdleList (t.relink L') (xs ++ ys ++ [p]) := by
  intro t
  have hp : p ∉ xs ++ ys := (List.nodup_cons.mp (List.nodup_middle.mp h.nodup)).1
  have hperm : (xs ++ ys ++ [p]).Perm (xs ++ p :: ys) := by
    rw [List.append_assoc]
    exact (List.perm_append_singleton p ys).append_left xs
  have hother : ∀ q, q ≠ p → t.idleStart q = s.idleStart q := fun q hq =>
    idleStart_congr (Store.write_of_ne _ _ hq)
  have hself : t.idleStart p = now := idleStart_of (s := t) (Store.write_self _ _ _)
  have hle : ∀ q, t.idleStart q ≤ now := by
    intro q
    by_cases hq : q = p
    · rw [hq, hself]
      exact UInt64.le_refl now
    · rw [hother q hq]
      exact UInt64.le_trans (h.past q) hnow
  have hkept : Kept t (xs ++ ys ++ [p]) := by
    apply h.toKept.write { c with idleStart := now } hc rfl hperm s.data hle
    refine List.pairwise_append.mpr ⟨?_, List.pairwise_singleton _ _, ?_⟩
    · have hsub : (xs ++ ys).Sublist (xs ++ p :: ys) :=
        (List.sublist_cons_self p ys).append_left xs
      apply (h.sorted.sublist hsub).imp_of_mem
      intro a b ha hb hab
      rw [show t.idleStart a = _ from hother a fun heq => hp (heq ▸ ha),
        show t.idleStart b = _ from hother b fun heq => hp (heq ▸ hb)]
      exact hab
    · intro a _ b hb
      rw [List.mem_singleton.mp hb]
      rw [hself]
      exact hle a
  have hring : Ring t.links .head ((xs ++ p :: ys).map .conn) := by
    rw [show t.links = s.links from links_write now { c with idleStart := now } hc rfl s.data]
    exact h.ring
  have hl : ∀ m ∈ ListNode.head :: (xs ++ p :: ys).map .conn, t.Live m := by
    intro m hm
    apply hkept.live_of_mem
    simpa [or_comm, or_left_comm] using hm
  obtain ⟨L₁, hdetach, hring₁⟩ := dlistDetach_ring hl hring
  obtain ⟨L₂, hinsert, hring₂⟩ := listInsertBefore_ring
    (fun m hm => hkept.live_of_mem hm) hring₁ hp
  rw [relink_links] at hdetach
  exact ⟨_, L₂, hdetach, hinsert, IdleList.relink hkept hring₂⟩

theorem connPut_getElem? (fd2conn : List (Option Ptr)) (fd : Nat) (p : Ptr) (i : Nat) (q : Ptr) :
    (connPut fd2conn fd p)[i]? = some (some q) ↔
      if i = fd then q = p else fd2conn[i]? = some (some q) := by
  unfold connPut
  dsimp only
  by_cases hi : i = fd
  · subst hi
    have hlt : i < (if fd2conn.length ≤ i
        then fd2conn ++ List.replicate (i + 1 - fd2conn.length) none else fd2conn).length := by
      split
      · rw [List.length_append, List.length_replicate]
        omega
      · omega
    rw [List.getElem?_set_self hlt, if_pos rfl]
    simp [eq_comm]
  · rw [List.getElem?_set_ne (Ne.symm hi), if_neg hi]
    split
    · rw [List.getElem?_append]
      split
      · rfl
      · next hlen =>
        rw [List.getElem?_eq_none (Nat.le_of_not_lt hlen), List.getElem?_replicate]
        split <;> simp
    · rfl

/-- The server with a new connection that is in no list yet. -/
def accepted (s : Server σ) (fd : Nat) (now : UInt64) : Server σ :=
  { s with
    conns := s.conns.write s.next { fd := fd, idleStart := now }
    next := s.next + 1
    fd2conn := connPut s.fd2conn fd s.next
    openFds := fd :: s.openFds
    clock := now }

theorem accepted_conns {fd : Nat} {q : Ptr} (hq : q ≠ s.next) :
    (s.accepted fd now).conns q = s.conns q :=
  Store.write_of_ne _ _ hq

theorem Kept.none_next (h : Kept s order) : s.conns s.next = none := by
  by_contra hne
  exact absurd (h.fresh _ (Option.isSome_iff_ne_none.mpr hne)) (Nat.lt_irrefl _)

theorem Kept.accepted {fd : Nat} (h : Kept s order) (hnow : s.clock ≤ now) (hfd : fd ∉ s.openFds) :
    Kept (s.accepted fd now) (order ++ [s.next]) := by
  have hnone := h.none_next
  have hnext : s.next ∉ order := by
    intro hm
    have := (h.live _).mp hm
    simp [hnone] at this
  have hself : (s.accepted fd now).conns s.next = some { fd := fd, idleStart := now } :=
    Store.write_self _ _ _
  have hstart : ∀ q, q ≠ s.next → (s.accepted fd now).idleStart q = s.idleStart q := fun q hq =>
    idleStart_congr (accepted_conns hq)
  have hle : ∀ q, (s.accepted fd now).idleStart q ≤ now := by
    intro q
    by_cases hq : q = s.next
    · rw [hq, idleStart_of hself]
      exact UInt64.le_refl now
    · rw [hstart q hq]
      exact UInt64.le_trans (h.past q) hnow
  refine ⟨?_, ?_, ?_, hle, ?_, List.nodup_cons.mpr ⟨hfd, h.once⟩, ?_⟩
  · intro q
    rw [List.mem_append, List.mem_singleton, h.live q]
    by_cases hq : q = s.next
    · rw [hq, hself]
      simp
    · rw [accepted_conns hq]
      simp [hq]
  · intro i q
    rw [show (s.accepted fd now).fd2conn = connPut s.fd2conn fd s.next from rfl, connPut_getElem?]
    by_cases hq : q = s.next
    · subst hq
      rw [hself]
      split
      · next hi => simp [hi]
      · next hi => simp [h.stored, hnone, Ne.symm hi]
    · rw [accepted_conns hq]
      split
      · next hi =>
        refine iff_of_false hq ?_
        rintro ⟨c, hc, hci⟩
        exact hfd (hi ▸ hci ▸ h.opened q c hc)
      · exact h.stored i q
  · refine List.pairwise_append.mpr ⟨?_, List.pairwise_singleton _ _, ?_⟩
    · apply h.sorted.imp_of_mem
      intro a b ha hb hab
      rw [hstart a fun heq => hnext (heq ▸ ha), hstart b fun heq => hnext (heq ▸ hb)]
      exact hab
    · intro a _ b hb
      rw [List.mem_singleton.mp hb, idleStart_of hself]
      exact hle a
  · intro q c hc
    by_cases hq : q = s.next
    · rw [hq, hself] at hc
      cases hc
      exact List.mem_cons_self
    · rw [accepted_conns hq] at hc
      exact List.mem_cons_of_mem _ (h.opened q c hc)
  · intro q hq
    by_cases hn : q = s.next
    · exact hn ▸ Nat.lt_succ_self _
    · rw [accepted_conns hn] at hq
      exact Nat.lt_succ_of_lt (h.fresh q hq)

/-- **Accepting** puts the new connection at the end of the list. -/
theorem accept_spec {fd : Nat} (h : IdleList s order) (hnow : s.clock ≤ now) (hfd : fd ∉ s.openFds) :
    ∃ s', s.acceptNewConnection (some fd) now = .ok s' ∧ IdleList s' (order ++ [s.next]) ∧
      (s.Open → s'.Open) := by
  have hkept := h.toKept.accepted hnow hfd
  have hnext : s.next ∉ order := by
    intro hm
    have := (h.live _).mp hm
    simp [h.toKept.none_next] at this
  -- the links do not depend on `fd2conn`
  let t : Server σ := { s.accepted fd now with fd2conn := s.fd2conn }
  have hl : ∀ m ∈ ListNode.head :: (order ++ [s.next]).map .conn, t.Live m := fun m hm =>
    hkept.live_of_mem hm
  have hinit : t.dListInit (.conn s.next) = .ok (t.relink (Rings.setNext (Rings.setPrev t.links
      (.conn s.next) (some (.conn s.next))) (.conn s.next) (some (.conn s.next)))) := by
    conv_lhs => rw [← relink_links t]
    unfold dListInit
    rw [setPrev_relink (hl _ (by simp)), ok_bind, setNext_relink (hl _ (by simp))]
  have hring : Ring (Rings.setNext (Rings.setPrev t.links (.conn s.next) (some (.conn s.next)))
      (.conn s.next) (some (.conn s.next))) .head (order.map .conn) := by
    apply h.ring.congr
    intro n hn
    have hne : n ≠ .conn s.next := by
      rintro rfl
      exact hnext (by simpa using hn)
    unfold Rings.setNext Rings.setPrev
    rw [Function.update_of_ne hne, Function.update_of_ne hne]
    cases n with
    | head => rfl
    | conn q =>
      have hq : q ≠ s.next := fun heq => hne (heq ▸ rfl)
      simp only [links]
      rw [show t.conns q = s.conns q from accepted_conns hq]
  obtain ⟨L', hinsert, hring'⟩ := listInsertBefore_ring hl hring hnext
  refine ⟨(s.accepted fd now).relink L', ?_, IdleList.relink hkept hring', ?_⟩
  · show (t.dListInit (.conn s.next) >>= fun s' => s'.listInsertBefore .head (.conn s.next) >>=
      fun s' => .ok { s' with fd2conn := connPut s'.fd2conn fd s.next }) = _
    rw [hinit, ok_bind, hinsert]
    rfl
  · intro ho
    refine Open.relink ?_ L'
    intro q c hc
    by_cases hq : q = s.next
    · subst hq
      cases (Store.write_self _ _ _).symm.trans hc
      exact nofun
    · rw [accepted_conns hq] at hc
      exact ho q c hc

/-! ## Evicting -/

theorem dListEmpty_iff (h : IdleList s order) :
    s.dListEmpty .head = .ok (decide (order = [])) := by
  unfold dListEmpty
  cases order with
  | nil => simp [node, show s.idleList.next = _ from h.ring.next_nil]
  | cons p order => simp [node, show s.idleList.next = _ from h.ring.next_cons]

/-- `next_us <= now_us`, as the code computes it. -/
def due (s : Server σ) (now : UInt64) (p : Ptr) : Bool :=
  decide (s.idleStart p + idleTimeoutMs * 1000 ≤ now)

theorem Closed.idleStart (h : Closed s gone s') (hp : p ∉ gone) : s'.idleStart p = s.idleStart p := by
  have hc := congrArg (fun o => (o.map LinkedConn.idleStart).getD 0) (h.conns p)
  simp only [if_neg hp, Option.map_map] at hc
  exact hc

theorem Closed.open (h : Closed s gone s')
    (ho : ∀ p ∉ gone, ∀ c, s.conns p = some c → c.conn.state ≠ .STATE_END) : s'.Open := by
  intro p c hc
  have hp := h.conns p
  rw [hc] at hp
  split at hp
  · cases hp
  · next hgone =>
    obtain ⟨d, hd, hdc⟩ := Option.map_eq_some_iff.mp hp.symm
    have hconn : c.conn = d.conn := (congrArg LinkedConn.conn hdc).symm
    rw [hconn]
    exact ho p hgone d hd

/-- What is left after closing, its links aside. -/
theorem Closed.kept (h : Closed s gone s') (hp : p ∉ gone) (hc : s.conns p = some c) :
    ∃ c', s'.conns p = some c' ∧ c'.unlinked = c.unlinked := by
  have hx := h.conns p
  rw [if_neg hp, hc] at hx
  exact Option.map_eq_some_iff.mp hx

theorem Closed.trans {gone' : List Ptr} {s'' : Server σ} (h : Closed s gone s')
    (h' : Closed s' gone' s'') : Closed s (gone ++ gone') s'' where
  conns p := by
    rw [h'.conns, h.conns]
    simp only [List.mem_append]
    by_cases hp : p ∈ gone <;> by_cases hp' : p ∈ gone' <;> simp [hp, hp']
  fd2conn := by
    rw [h'.fd2conn, h.fd2conn, List.map_map]
    apply List.map_congr_left
    intro o _
    cases o with
    | none => rfl
    | some p => by_cases hp : p ∈ gone <;> simp [Option.filter, hp]
  openFds fd := by
    rw [h'.openFds, h.openFds]
    constructor
    · rintro ⟨⟨hfd, hgone⟩, hgone'⟩
      refine ⟨hfd, ?_⟩
      intro p hp c hc heq
      rcases em (p ∈ gone) with hm | hm
      · exact hgone p hm c hc heq
      · obtain ⟨c', hc', hu⟩ := h.kept hm hc
        exact hgone' p ((List.mem_append.mp hp).resolve_left hm) c' hc'
          ((congrArg LinkedConn.fd hu).trans heq)
    · rintro ⟨hfd, hgone⟩
      refine ⟨⟨hfd, fun p hp => hgone p (List.mem_append_left _ hp)⟩, ?_⟩
      intro p hp c' hc' heq
      have hx := h.conns p
      rw [hc'] at hx
      split at hx
      · cases hx
      · obtain ⟨c, hc, hu⟩ := Option.map_eq_some_iff.mp hx.symm
        exact hgone p (List.mem_append_right _ hp) c hc ((congrArg LinkedConn.fd hu).trans heq)
  rest := ⟨h'.rest.1.trans h.rest.1, h'.rest.2.1.trans h.rest.2.1, h'.rest.2.2.trans h.rest.2.2⟩

theorem Closed.refl (s : Server σ) : Closed s [] s where
  conns p := by simp
  fd2conn := by
    refine (List.map_id'' ?_ _).symm
    intro o
    cases o <;> simp [Option.filter]
  openFds fd := by simp
  rest := ⟨rfl, rfl, rfl⟩

/-- One iteration. -/
theorem evictLoop_succ {fuel : Nat} (h : IdleList s (p :: order)) :
    evictLoop now (fuel + 1) s =
      if s.due now p then s.drop p >>= evictLoop now fuel else .ok s := by
  obtain ⟨c, hc⟩ := Option.isSome_iff_exists.mp ((h.live p).mp List.mem_cons_self)
  have hnext : s.idleList.next = some (.conn p) := h.ring.next_cons
  rw [evictLoop, dListEmpty_iff h]
  simp only [ok_bind, reduceCtorEq, decide_false, Bool.false_eq_true, if_false]
  rw [hnext, connOf, ok_bind, Store.read_of hc, ok_bind, due, idleStart_of hc]
  by_cases hle : c.idleStart + idleTimeoutMs * 1000 ≤ now
  · rw [if_neg (UInt64.not_lt.mpr hle), if_pos (decide_eq_true hle)]
  · rw [if_pos (UInt64.not_le.mp hle), if_neg (fun h => hle (of_decide_eq_true h))]
    rfl

theorem Closed.due (h : Closed s gone s') (hp : p ∉ gone) : s'.due now p = s.due now p := by
  rw [Server.due, Server.due, h.idleStart hp]

/-- The loop ends at the first connection that is not due.  Induction on the fuel. -/
theorem evictLoop_spec : ∀ {fuel : Nat} {s : Server σ} {order : List Ptr}, IdleList s order →
    order.length < fuel → ∃ s' gone left, evictLoop now fuel s = .ok s' ∧ order = gone ++ left ∧
      IdleList s' left ∧ Closed s gone s' ∧ (∀ p ∈ gone, s.due now p = true) ∧
      ∀ p ∈ left.head?, s.due now p = false
  | 0, _, _, _, hfuel => absurd hfuel (Nat.not_lt_zero _)
  | fuel + 1, s, [], h, _ => by
    refine ⟨s, [], [], ?_, rfl, h, Closed.refl s, nofun, nofun⟩
    rw [evictLoop, dListEmpty_iff h, ok_bind, if_pos (decide_eq_true rfl)]
    rfl
  | fuel + 1, s, p :: order, h, hfuel => by
    rw [evictLoop_succ h]
    cases hdue : s.due now p with
    | false =>
      refine ⟨s, [], p :: order, if_neg nofun, rfl, h, Closed.refl s, nofun, ?_⟩
      intro q hq
      rw [← Option.mem_some.mp hq]
      exact hdue
    | true =>
      have hhead : IdleList s ([] ++ p :: order) := h
      obtain ⟨t, ht, hlist, hclosed⟩ := drop_spec hhead
      obtain ⟨s', gone, left, hs', horder, hleft, hgone, hdues, hfresh⟩ :=
        evictLoop_spec hlist (Nat.lt_of_succ_lt_succ hfuel)
      have hsame : ∀ q ∈ order, t.due now q = s.due now q := by
        intro q hq
        refine hclosed.due fun hm => (List.nodup_cons.mp h.nodup).1 ?_
        exact List.mem_singleton.mp hm ▸ hq
      have horder : order = gone ++ left := horder
      refine ⟨s', p :: gone, left, ?_, by rw [horder, List.cons_append], hleft,
        hclosed.trans hgone, ?_, ?_⟩
      · rw [if_pos rfl, ht, ok_bind, hs']
      · intro q hq
        rcases List.mem_cons.mp hq with rfl | hq
        · exact hdue
        · rw [← hsame q (horder ▸ List.mem_append_left _ hq)]
          exact hdues q hq
      · intro q hq
        rw [← hsame q (horder ▸ List.mem_append_right _ (List.mem_of_mem_head? hq))]
        exact hfresh q hq

/-- Every live connection has a place in `fd2conn`. -/
theorem IdleList.length_le (h : IdleList s order) : order.length ≤ s.fd2conn.length := by
  have hsub : order.map some ⊆ s.fd2conn := by
    intro o ho
    obtain ⟨p, hp, rfl⟩ := List.mem_map.mp ho
    obtain ⟨c, hc⟩ := Option.isSome_iff_exists.mp ((h.live p).mp hp)
    exact List.mem_of_getElem? ((h.stored c.fd p).mpr ⟨c, hc, rfl⟩)
  have hnd : (order.map some).Nodup := h.nodup.map (Option.some_injective _)
  simpa using (hnd.subperm hsub).length_le

theorem evictIdle_spec (now : UInt64) (h : IdleList s order) :
    ∃ s' gone left, s.evictIdle now = .ok s' ∧ order = gone ++ left ∧ IdleList s' left ∧
      Closed s gone s' ∧ (∀ p ∈ gone, s.due now p = true) ∧ ∀ p ∈ left.head?, s.due now p = false :=
  evictLoop_spec h (Nat.lt_succ_of_le h.length_le)

/-! ## Events -/

/-- The state machine of a connection leaves the list as it is. -/
theorem IdleList.setConn (h : IdleList s order) (hc : s.conns p = some c) (conn : Conn) (d : σ) :
    IdleList { s with conns := s.conns.write p { c with conn := conn }, data := d } order := by
  have hstart : ∀ q, { s with conns := s.conns.write p { c with conn := conn }, data := d }.idleStart q =
      s.idleStart q := by
    intro q
    by_cases hq : q = p
    · subst hq
      rw [idleStart_of hc]
      exact idleStart_of (c := { c with conn := conn }) (Store.write_self _ _ _)
    · exact idleStart_congr (Store.write_of_ne _ _ hq)
  refine ⟨h.toKept.write { c with conn := conn } hc rfl (List.Perm.refl order) d ?_ ?_, ?_⟩
  · intro q
    exact (hstart q).symm ▸ h.past q
  · exact h.sorted.imp fun {a b} hab => by
      rw [show _ = _ from hstart a, show _ = _ from hstart b]
      exact hab
  · have hlinks := links_write s.clock { c with conn := conn } hc rfl d
    exact hlinks.symm ▸ h.ring

section Events

variable {handle : σ → List Bytes → Res (σ × ResCode × Bytes)} {expire : UInt64 → σ → Res σ}
  {e : LoopEvent}

/-- A fault of what the loop calls: the state machine of a connection that is not marked for
deletion, or the TTL loop. -/
def CalleeFaults (handle : σ → List Bytes → Res (σ × ResCode × Bytes)) (expire : UInt64 → σ → Res σ)
    (f : Fault) : Prop :=
  (∃ conn net net', conn.state ≠ .STATE_END ∧
    RedisServer.connectionIo handle conn net = .error (f, net')) ∨
  ∃ now data, expire now data = .error f

/-- After `connection_io` only the connection itself can be marked for deletion. -/
theorem connectionIo_spec (io : IoScript) (h : IdleList s order) (ho : s.Open) (hnow : s.clock ≤ now)
    (hc : s.conns p = some c) :
    (∃ t c' order', s.connectionIo handle p io now = .ok t ∧ t.conns p = some c' ∧
      IdleList t order' ∧ ∀ q d, t.conns q = some d → q ≠ p → d.conn.state ≠ .STATE_END) ∨
      ∃ f, s.connectionIo handle p io now = .error f ∧ CalleeFaults handle expire f := by
  obtain ⟨xs, ys, rfl⟩ := List.append_of_mem ((h.live p).mpr (by rw [hc]; rfl))
  obtain ⟨t', L', hdetach, hinsert, hlist⟩ := move_spec h hc hnow
  unfold connectionIo
  rw [Store.read_of hc, ok_bind]
  dsimp only
  rw [hdetach, ok_bind, hinsert, ok_bind]
  generalize ht : Server.relink _ L' = t at hlist
  have hp : t.conns p = some { c with idleStart := now, idleList := L' (.conn p) } := by
    rw [← ht]
    simp [Server.relink]
  cases hio : RedisServer.connectionIo handle c.conn
      { db := t.data, inbox := io.inbox, reads := io.reads, writes := io.writes } with
  | error e =>
    exact .inr ⟨e.1, rfl, .inl ⟨c.conn, _, e.2, ho p c hc, hio⟩⟩
  | ok r =>
    refine .inl ⟨_, _, _, ?_, Store.write_self _ _ _, hlist.setConn hp r.1 r.2.db, ?_⟩
    · show (t.conns.modify p _ >>= fun conns => _) = _
      rw [Store.modify_of _ hp]
      rfl
    · intro q d hd hq
      have hd : t.conns q = some d := (Store.write_of_ne _ _ hq).symm.trans hd
      rw [← ht] at hd
      obtain ⟨d', hd', rfl⟩ := relink_conns hd
      exact ho q d' ((Store.write_of_ne _ _ hq).symm.trans hd')

theorem ready_spec (io : IoScript) (h : IdleList s order) (ho : s.Open) (hnow : s.clock ≤ now)
    {fd : Nat} (hfd : s.fd2conn[fd]? = some (some p)) :
    (∃ s' order', s.clientReady handle fd io now = .ok s' ∧ IdleList s' order' ∧ s'.Open) ∨
      ∃ f, s.clientReady handle fd io now = .error f ∧ CalleeFaults handle expire f := by
  obtain ⟨c, hc, -⟩ := (h.stored fd p).mp hfd
  unfold clientReady
  simp only [hfd]
  rcases connectionIo_spec io h ho hnow hc with ⟨t, c', order', hio, hp, hlist, hopen⟩ | ⟨f, hio, hf⟩
  · rw [hio, ok_bind, Store.read_of hp, ok_bind]
    by_cases hend : c'.conn.state = .STATE_END
    · obtain ⟨xs, ys, rfl⟩ := List.append_of_mem ((hlist.live p).mpr (by rw [hp]; rfl))
      obtain ⟨s', hs', hlist', hclosed⟩ := drop_spec hlist
      rw [if_pos hend]
      exact .inl ⟨s', _, hs', hlist', hclosed.open fun q hq d hd =>
        hopen q d hd fun heq => hq (List.mem_singleton.mpr heq)⟩
    · rw [if_neg hend]
      refine .inl ⟨t, order', rfl, hlist, ?_⟩
      intro q d hd
      by_cases hq : q = p
      · subst hq
        cases hp.symm.trans hd
        exact hend
      · exact hopen q d hd hq
  · exact .inr ⟨f, by rw [hio]; rfl, hf⟩

/-- The clock and the data are not seen by the list. -/
theorem IdleList.setData (h : IdleList s order) (d : σ) (hnow : s.clock ≤ now) :
    IdleList { s with data := d, clock := now } order where
  live := h.live
  stored := h.stored
  sorted := h.sorted
  past p := UInt64.le_trans (h.past p) hnow
  opened := h.opened
  once := h.once
  fresh := h.fresh
  ring := h.ring

/-- **One event.**  The list survives it, and only what the loop calls can fail. -/
theorem step_spec (h : IdleList s order) (ho : s.Open) (ha : s.Admits e) :
    (∃ s' order', s.step handle expire e = .ok s' ∧ IdleList s' order' ∧ s'.Open) ∨
      ∃ f, s.step handle expire e = .error f ∧ CalleeFaults handle expire f := by
  cases e with
  | accept newFd now =>
    cases newFd with
    | none => exact .inl ⟨s, order, rfl, h, ho⟩
    | some fd =>
      obtain ⟨s', hs', hlist, hopen⟩ := accept_spec h ha.1 (ha.2 fd rfl)
      exact .inl ⟨s', _, hs', hlist, hopen ho⟩
  | ready clientFd io now =>
    show (∃ s' order', s.clientReady handle clientFd io now = .ok s' ∧ _) ∨ _
    rcases hfd : s.fd2conn[clientFd]? with _ | _ | p
    · exact .inl ⟨s, order, by unfold clientReady; rw [hfd], h, ho⟩
    · exact .inl ⟨s, order, by unfold clientReady; rw [hfd], h, ho⟩
    · exact ready_spec io h ho ha hfd
  | timers now =>
    obtain ⟨s', gone, left, hs', -, hlist, hclosed, -⟩ := evictIdle_spec now h
    show (∃ t order', s.processTimers expire now = .ok t ∧ _) ∨
      ∃ f, s.processTimers expire now = .error f ∧ _
    unfold processTimers
    rw [hs', ok_bind]
    cases hd : expire now s'.data with
    | error f => exact .inr ⟨f, rfl, .inr ⟨now, s'.data, hd⟩⟩
    | ok d =>
      refine .inl ⟨_, left, rfl, hlist.setData d (hclosed.rest.2.2 ▸ ha), ?_⟩
      intro p c hc
      exact hclosed.open (fun q _ => ho q) p c hc

/-! ## Runs -/

theorem start_idleList (data : σ) : IdleList (start data) [] where
  live p := by simp [start, Store.empty]
  stored fd p := by simp [start, Store.empty]
  sorted := .nil
  past p := UInt64.le_refl _
  opened p c hc := nomatch hc
  once := .nil
  fresh p hp := nomatch hp
  ring := Ring.init rfl rfl

theorem start_open (data : σ) : (start data).Open := fun _ _ hc => nomatch hc

/-- `idle_start + k_idle_timeout_ms * 1000 <= now`, without wrapping around. -/
def idleFor (s : Server σ) (now : UInt64) (p : Ptr) : Bool :=
  decide ((s.idleStart p).toNat + idleTimeoutMs.toNat * 1000 ≤ now.toNat)

theorem due_eq_idleFor (hp : (s.idleStart p).toNat + idleTimeoutMs.toNat * 1000 < 2 ^ 64) :
    s.due now p = s.idleFor now p := by
  have htimeout : (idleTimeoutMs * 1000).toNat = idleTimeoutMs.toNat * 1000 := by decide
  apply decide_eq_decide.mpr
  rw [UInt64.le_iff_toNat_le, UInt64.toNat_add, htimeout, Nat.mod_eq_of_lt hp]

/-- In a list sorted by `idle_start`, those behind a fresh connection are fresh. -/
theorem idleFor_mono (hs : (p :: order).Pairwise fun p q => s.idleStart p ≤ s.idleStart q)
    (hp : s.idleFor now p = false) : ∀ q ∈ p :: order, s.idleFor now q = false := by
  intro q hq
  rcases List.mem_cons.mp hq with rfl | hq
  · exact hp
  · have hle := UInt64.le_iff_toNat_le.mp (List.rel_of_pairwise_cons hs hq)
    refine decide_eq_false fun hidle => of_decide_eq_false hp ?_
    exact (Nat.add_le_add_right hle _).trans hidle

/-- **Exact eviction.** -/
theorem evictIdle_exact (now : UInt64) (h : IdleList s order)
    (hsafe : ∀ p ∈ order, (s.idleStart p).toNat + idleTimeoutMs.toNat * 1000 < 2 ^ 64) :
    ∃ s', s.evictIdle now = .ok s' ∧ IdleList s' (order.filter fun p => !s.idleFor now p) ∧
      Closed s (order.filter (s.idleFor now)) s' := by
  obtain ⟨s', gone, left, hs', rfl, hleft, hgone, hdue, hfresh⟩ := evictIdle_spec now h
  have hg : ∀ p ∈ gone, s.idleFor now p = true := by
    intro p hp
    rw [← due_eq_idleFor (hsafe p (List.mem_append_left _ hp))]
    exact hdue p hp
  have hl : ∀ p ∈ left, s.idleFor now p = false := by
    cases left with
    | nil => exact nofun
    | cons p left =>
      have hp := hfresh p rfl
      rw [due_eq_idleFor (hsafe p (by simp))] at hp
      exact idleFor_mono (List.pairwise_append.mp h.sorted).2.1 hp
  have hdone : (gone ++ left).filter (s.idleFor now) = gone := by
    rw [List.filter_append, List.filter_eq_self.mpr hg, List.filter_eq_nil_iff.mpr, List.append_nil]
    simpa using hl
  have hrest : (gone ++ left).filter (fun p => !s.idleFor now p) = left := by
    rw [List.filter_append, List.filter_eq_nil_iff.mpr (by simpa using hg), List.nil_append]
    exact List.filter_eq_self.mpr (by simpa using hl)
  rw [hdone, hrest]
  exact ⟨s', hs', hleft, hgone⟩

/-- Every admitted run keeps the list, or ends in a fault of what the loop calls. -/
theorem run_spec : ∀ {events : List LoopEvent} {s : Server σ} {order : List Ptr}, IdleList s order →
    s.Open → AllSteps (step handle expire) Admits s events →
    (∀ s', run (step handle expire) s events = .ok s' → ∃ order', IdleList s' order') ∧
      ∀ f, run (step handle expire) s events = .error f → CalleeFaults handle expire f
  | [], _, order, h, _, _ => ⟨fun s' hs' => by cases hs'; exact ⟨order, h⟩, nofun⟩
  | e :: events, s, order, h, ho, hadm => by
    obtain ⟨he, hes⟩ := allSteps_cons.mp hadm
    rw [run]
    rcases step_spec h ho he with ⟨t, order', ht, hlist, hopen⟩ | ⟨f, hf, hcallee⟩
    · rw [ht, ok_bind]
      exact run_spec hlist hopen (hes t ht)
    · rw [hf]
      constructor
      · intro s' hs'
        cases hs'
      · intro f' hf'
        cases hf'
        exact hcallee

end Events

/-- **The idle list and its evictions**, over every run of the event loop. -/
theorem idle_list_and_eviction (handle : σ → List Bytes → Res (σ × ResCode × Bytes))
    (expire : UInt64 → σ → Res σ) (data : σ) (events : List LoopEvent)
    (hadm : AllSteps (step handle expire) Admits (start data) events) :
    (∀ s, run (step handle expire) (start data) events = .ok s →
      ∃ order, IdleList s order ∧ ∀ now,
        (∀ p ∈ order, (s.idleStart p).toNat + idleTimeoutMs.toNat * 1000 < 2 ^ 64) →
        ∃ s', s.processTimers expire now =
            (expire now s.data).map (fun d => { s' with data := d, clock := now }) ∧
          IdleList s' (order.filter fun p => !s.idleFor now p) ∧
          Closed s (order.filter (s.idleFor now)) s') ∧
    ∀ f, run (step handle expire) (start data) events = .error f → CalleeFaults handle expire f := by
  obtain ⟨hok, herr⟩ := run_spec (start_idleList data) (start_open data) hadm
  refine ⟨?_, herr⟩
  intro s hs
  obtain ⟨order, h⟩ := hok s hs
  refine ⟨order, h, ?_⟩
  intro now hsafe
  obtain ⟨s', hs', hlist, hclosed⟩ := evictIdle_exact now h hsafe
  refine ⟨s', ?_, hlist, hclosed⟩
  unfold processTimers
  rw [hs', ok_bind, hclosed.rest.1]
  cases expire now s.data <;> rfl

/-- Two connections; the first one talks, so that the second one is closed first. -/
theorem idle_list_and_eviction_second : ∃ s s' order,
    run (step (Host.serve ⟨64, 0⟩) Host.expire) (start {})
        [.accept (some 3) 10, .accept (some 4) 20, .ready 3 ⟨[], [], []⟩ 30] = .ok s ∧
      IdleList s order ∧ IdleList s' (order.filter fun p => !s.idleFor 5000025 p) ∧
      Closed s (order.filter (s.idleFor 5000025)) s' ∧
      s'.fd2conn = [none, none, none, some 0, none] := by
  let events : List LoopEvent := [.accept (some 3) 10, .accept (some 4) 20, .ready 3 ⟨[], [], []⟩ 30]
  have hclock : (run (step (Host.serve ⟨64, 0⟩) Host.expire) (start {}) events).toOption.map clock =
      some 30 := by decide +kernel
  have htimers : (run (step (Host.serve ⟨64, 0⟩) Host.expire) (start {}) events >>= fun s =>
      s.processTimers Host.expire 5000025).toOption.map Server.fd2conn =
      some [none, none, none, some 0, none] := by decide +kernel
  have hadm : AllSteps (step (Host.serve ⟨64, 0⟩) Host.expire) Admits (start {}) events := by
    decide +kernel
  obtain ⟨hok, -⟩ := idle_list_and_eviction (Host.serve ⟨64, 0⟩) Host.expire {} events hadm
  obtain ⟨s, hrun, hclock⟩ := ok_of_map hclock
  obtain ⟨t, htimers, hfds⟩ := ok_of_map htimers
  rw [hrun, ok_bind] at htimers
  obtain ⟨order, h, hevict⟩ := hok s hrun
  have hsafe : ∀ p ∈ order, (s.idleStart p).toNat + idleTimeoutMs.toNat * 1000 < 2 ^ 64 := by
    intro p _
    have hp := UInt64.le_iff_toNat_le.mp (h.past p)
    rw [hclock] at hp
    exact (Nat.add_le_add_right hp _).trans_lt (by decide)
  obtain ⟨s', hs', hlist, hclosed⟩ := hevict 5000025 hsafe
  rw [hs'] at htimers
  obtain ⟨d, -, rfl⟩ := map_ok.mp htimers
  exact ⟨s, s', order, hrun, h, hlist, hclosed, hfds⟩

/-- At the end of the clock the sum wraps around, and a connection is closed as it is accepted. -/
theorem eviction_wraps :
    let now : UInt64 := 18446744073709551615
    let s := (run (step (Host.serve ⟨64, 0⟩) Host.expire) (start {}) [.accept (some 3) now]).toOption
    AllSteps (step (Host.serve ⟨64, 0⟩) Host.expire) Admits (start {}) [.accept (some 3) now] ∧
      s.map (fun s => (s.fd2conn, s.idleFor now 0)) = some ([none, none, none, some 0], false) ∧
      (s.bind fun s => (s.processTimers Host.expire now).toOption).map Server.fd2conn =
        some [none, none, none, none] := by
  decide +kernel

end Server

end RedisServer
