import RedisServer.Bystanders
import RedisServer.Destructor
import RedisServer.ThreadPool

/-!
# common.cpp and thread.cpp — sorted sets destroyed in the background

`Process` is the server with its worker threads in one memory: `entries` holds every entry that is
allocated, also one that `entry_del` has queued.  A request, a timer pass, a mutex-held section of
`worker` and each half of `threaded_zset_destructor` is one step; the steps of the threads are
interleaved in any order.

`answering` is the main thread on its own, where an entry leaves the store when `entry_del` gives
it away.

Results:
* `Tracks` — what ties the shared memory to the data of the main thread on its own;
* `deferred_destruction` — the main thread cannot tell the difference, no thread touches an entry
  that was deleted, and each entry queued is deleted once.
-/

set_option autoImplicit false

namespace RedisServer

open Runs

/-! ## The model -/

/-- The address of `threaded_zset_destructor`, the only function that is queued. -/
def threadedZSetDestructor : Ptr := 0

structure Process where
  data : GlobalData -- `tp` records the entries queued so far
  tp : ThreadPool
  emptied : Nat → Bool := fun _ => false -- by thread: its entry has no set any more
  picks : List Nat := [] -- the waiters that signals wake
  freed : List Ptr := [] -- the entries deleted by workers
  answers : List (ResCode × Bytes) := []

/-- The entry that a thread works on. -/
def Thread.job : Thread → Option Ptr
  | .working w => w.arg
  | _ => none

namespace Process

variable (lim : Limits)

/-- `entry_del`; an entry that is queued stays allocated. -/
def entryDel (s : Process) (ent : Ptr) : Res Process := do
  let e ← s.data.entries.read ent
  if e.type = 1 ∧ e.zset.isSome then
    return { s with
      data := { s.data with tp := s.data.tp ++ [e] }
      tp := threadPoolQueue s.tp (some threadedZSetDestructor) (some ent) (s.picks.headD 0)
      picks := s.picks.tail }
  else return { s with data := { s.data with entries := s.data.entries.free ent } }

def doDel (s : Process) (cmd : List Bytes) (out : Bytes) : Res (Process × ResCode × Bytes) := do
  let key ← arg cmd 1
  let (db, found) ← hmDelete s.data.db (strHash key) (entryEq s.data.entries key)
  let s := { s with data := { s.data with db := db } }
  match found with
  | none => return (s, .RES_OK, outInt out 0)
  | some node => return (← s.entryDel node.ptr, .RES_OK, outInt out 1)

/-- `do_request`; only `do_del` gets to `entry_del`. -/
def doRequest (now : UInt64) (s : Process) (cmd : List Bytes) (out : Bytes) :
    Res (Process × ResCode × Bytes) :=
  if cmd.head? = some (ascii "del") ∧ cmd.length = 2 then s.doDel cmd out
  else do
    let (data, code, out) ← RedisServer.doRequest lim now s.data cmd out
    return ({ s with data := data }, code, out)

/-- One iteration of the TTL loop. -/
def expireTop (s : Process) : Res Process := do
  let ent := (← itemAt s.data.heap 0).ref
  let e ← s.data.entries.read ent
  let (db, node) ← hmDelete s.data.db e.node.hcode (entryEq s.data.entries e.key)
  assert (decide (node.map HNode.ptr = some ent))
  match e.heapIdx with
  | none => .error .outOfBounds
  | some pos =>
    let (entries, heap) ← heapRemove s.data.entries s.data.heap pos
    let entries ← entries.modify ent (fun e => { e with heapIdx := none })
    entryDel { s with data := { s.data with db := db, entries := entries, heap := heap } } ent

def expireLoop (now : UInt64) : Nat → Process → Res Process
  | 0, s => .ok s
  | n + 1, s =>
    match s.data.heap with
    | [] => .ok s
    | top :: _ => if top.val < now then do expireLoop now n (← s.expireTop) else .ok s

def processTimers (s : Process) (now : UInt64) : Res Process := s.expireLoop now (maxWorks + 1)

/-- The entry that thread `i` works on. -/
def jobOf (s : Process) (i : Nat) : Option Ptr := s.tp.threads[i]?.bind Thread.job

/-- `threaded_zset_destructor` up to `delete ent`. -/
def deleteZSet (s : Process) (i : Nat) : Res Process := do
  let ent ← deref (s.jobOf i)
  let e ← s.data.entries.read ent
  let s := { s with emptied := Function.update s.emptied i true }
  match e.zset with
  | none => return s
  | some z =>
    let _ ← z.destroy lim
    let entries := s.data.entries.write ent { e with zset := none }
    return { s with data := { s.data with entries := entries } }

/-- `delete ent`, and back to the head of the loop of `worker`. -/
def deleteEntry (s : Process) (i : Nat) : Res Process := do
  let ent ← deref (s.jobOf i)
  let _ ← s.data.entries.read ent
  return { s with
    data := { s.data with entries := s.data.entries.free ent }
    tp := { s.tp with threads := s.tp.threads.set i .locking }
    emptied := Function.update s.emptied i false
    freed := s.freed ++ [ent] }

end Process

inductive ProcessEvent where
  | main (ev : Event)
  | lock (i : Nat) -- thread `i` gets the mutex
  | spurious (i : Nat) -- `pthread_cond_wait` of thread `i` ends without a signal
  | deleteZSet (i : Nat)
  | deleteEntry (i : Nat)

/-- The event, if it is one of the main thread. -/
def ProcessEvent.ofMain : ProcessEvent → Option Event
  | .main ev => some ev
  | _ => none

namespace Process

def step (lim : Limits) (s : Process) : ProcessEvent → Res Process
  | .main (.request now cmd) => do
    let (s, answer) ← s.doRequest lim now cmd []
    return { s with answers := s.answers ++ [answer] }
  | .main (.timers now) => s.processTimers now
  | .lock i => do return { s with tp := (← worker s.tp i).1 }
  | .spurious i => .ok { s with tp := { s.tp with threads := s.tp.threads.set i .woken } }
  | .deleteZSet i => s.deleteZSet lim i
  | .deleteEntry i => s.deleteEntry i

/-- What the mutex, the condition variable and the program of a worker admit. -/
def Enabled (s : Process) : ProcessEvent → Prop
  | .main _ => True
  | .lock i => s.tp.threads[i]? = some .locking ∨ s.tp.threads[i]? = some .woken
  | .spurious i => s.tp.threads[i]? = some .waiting
  | .deleteZSet i => (s.jobOf i).isSome ∧ s.emptied i = false
  | .deleteEntry i => (s.jobOf i).isSome ∧ s.emptied i = true

instance (s : Process) : ∀ e, Decidable (s.Enabled e)
  | .main _ => inferInstanceAs (Decidable True)
  | .lock i => inferInstanceAs (Decidable (s.tp.threads[i]? = some .locking ∨ _))
  | .spurious i => inferInstanceAs (Decidable (s.tp.threads[i]? = some .waiting))
  | .deleteZSet i => inferInstanceAs (Decidable (_ ∧ s.emptied i = false))
  | .deleteEntry i => inferInstanceAs (Decidable (_ ∧ s.emptied i = true))

end Process

/-- The entries queued or being worked on. -/
def ThreadPool.pending (tp : ThreadPool) : List Ptr :=
  tp.queue.filterMap Work.arg ++ tp.threads.filterMap Thread.job

/-- The main thread on its own, with its answers. -/
def answering (lim : Limits) (s : GlobalData × List (ResCode × Bytes)) :
    Event → Res (GlobalData × List (ResCode × Bytes))
  | .request now cmd => do
    let (g, answer) ← doRequest lim now s.1 cmd []
    return (g, s.2 ++ [answer])
  | .timers now => do return (← processTimers s.1 now, s.2)

/-! ## The jobs in hand -/

variable {threads : List Thread} {i : Nat} {t u : Thread} {tp tp' : ThreadPool} {p : Ptr}

theorem perm_jobs_set (h : threads[i]? = some t) (u : Thread) :
    (t.job.toList ++ (threads.set i u).filterMap Thread.job).Perm
      (u.job.toList ++ threads.filterMap Thread.job) := by
  obtain ⟨hi, rfl⟩ := List.getElem?_eq_some_iff.mp h
  obtain ⟨l₁, l₂, hold, -, hnew⟩ : ∃ l₁ l₂, threads = l₁ ++ threads[i] :: l₂ ∧ l₁.length = i ∧
      threads.set i u = l₁ ++ u :: l₂ := List.exists_of_set hi
  have hcons : ∀ x : Thread, (l₁ ++ x :: l₂).filterMap Thread.job =
      l₁.filterMap Thread.job ++ (x.job.toList ++ l₂.filterMap Thread.job) := by
    intro x
    rw [List.filterMap_append, List.filterMap_cons]
    cases x.job <;> rfl
  have hjobs := hcons threads[i]
  rw [← hold] at hjobs
  rw [hnew, hcons, hjobs, List.perm_iff_count]
  intro x
  simp only [List.count_append]
  omega

/-- A thread without a job that still has none. -/
theorem pending_set (h : threads[i]? = some t) (ht : t.job = none) (hu : u.job = none)
    (queue : List Work) :
    (ThreadPool.pending ⟨threads.set i u, queue⟩).Perm (ThreadPool.pending ⟨threads, queue⟩) := by
  have hjobs := perm_jobs_set h u
  rw [ht, hu] at hjobs
  exact hjobs.append_left _

theorem pending_queue (tp : ThreadPool) (f : Option Ptr) (p : Ptr) (i : Nat) :
    (threadPoolQueue tp f (some p) i).pending.Perm (p :: tp.pending) := by
  have hqueue : (ThreadPool.pending ⟨tp.threads, tp.queue ++ [⟨f, some p⟩]⟩).Perm
      (p :: tp.pending) := by
    unfold ThreadPool.pending
    rw [List.filterMap_append, List.append_assoc]
    exact List.perm_middle
  unfold threadPoolQueue condSignal
  dsimp only
  split
  · rename_i hi
    exact (pending_set hi rfl rfl _).trans hqueue
  · exact hqueue

theorem pending_lock {w : Option Work} (h : worker tp i = .ok (tp', w))
    (hi : tp.threads[i]? = some t) (ht : t.job = none) : tp'.pending.Perm tp.pending := by
  unfold worker at h
  split at h
  · cases h
    exact pending_set hi ht rfl _
  · cases hq : tp.queue with
    | nil =>
      rw [hq] at h
      cases h
    | cons w queue =>
      rw [hq] at h
      cases h
      have hjobs := perm_jobs_set hi (.working w)
      rw [ht] at hjobs
      unfold ThreadPool.pending
      rw [hq, List.perm_iff_count]
      intro x
      have hx := hjobs.count_eq x
      have hcons : (w :: queue).filterMap Work.arg = w.arg.toList ++ queue.filterMap Work.arg := by
        rw [List.filterMap_cons]
        cases w.arg <;> rfl
      have hjob : (Thread.working w).job = w.arg := rfl
      rw [hcons]
      rw [hjob] at hx
      simp only [List.count_append, Option.toList_none, List.nil_append] at hx ⊢
      omega

theorem pending_done (hi : tp.threads[i]?.bind Thread.job = some p) :
    (p :: ThreadPool.pending ⟨tp.threads.set i .locking, tp.queue⟩).Perm tp.pending := by
  obtain ⟨t, ht, hjob⟩ := Option.bind_eq_some_iff.mp hi
  have hjobs := perm_jobs_set ht .locking
  rw [hjob] at hjobs
  exact List.perm_middle.symm.trans (hjobs.append_left _)

/-! ## The entries given away -/

variable {lim : Limits} {g g' : GlobalData} {s s' : Process} {B : Store Entry} {e : Entry}
  {now : UInt64} {cmd : List Bytes} {code : ResCode} {out : Bytes} {log : List (ResCode × Bytes)}

/-- The entries queued so far were different ones, and are the server's no more. -/
structure GlobalData.Given (g : GlobalData) : Prop where
  gone : ∀ e ∈ g.tp, e.node.ptr < g.next ∧ g.entries e.node.ptr = none
  once : (g.tp.map fun e => e.node.ptr).Nodup

/-- Nothing was queued, and what was deleted stays so. -/
structure GlobalData.KeepsGone (g g' : GlobalData) : Prop where
  tp : g'.tp = g.tp
  gone : ∀ p, p < g.next ∧ g.entries p = none → p < g'.next ∧ g'.entries p = none

open GlobalData

theorem GlobalData.KeepsGone.given (h : KeepsGone g g') (hg : g.Given) : g'.Given where
  gone e he := h.gone _ (hg.gone e (h.tp ▸ he))
  once := h.tp ▸ hg.once

theorem GlobalData.KeepsGone.trans {g₁ : GlobalData} (h : KeepsGone g g₁) (h' : KeepsGone g₁ g') :
    KeepsGone g g' :=
  ⟨h'.tp.trans h.tp, fun p hp => h'.gone p (h.gone p hp)⟩

theorem GlobalData.KeepsGone.entries (htp : g'.tp = g.tp) (hn : g'.next = g.next)
    (hE : g'.entries = g.entries) : KeepsGone g g' :=
  ⟨htp, fun p hp => by rwa [hn, hE]⟩

theorem GlobalData.KeepsGone.write {p : Ptr} (he : g.entries p = some e) (e' : Entry) :
    KeepsGone g { g with entries := g.entries.write p e' } := by
  refine ⟨rfl, fun q ⟨hlt, hq⟩ => ⟨hlt, write_eq_none.mpr ⟨?_, hq⟩⟩⟩
  rintro rfl
  rw [he] at hq
  cases hq

theorem GlobalData.KeepsGone.created {m : HMap} (hc : Created g e m g') : KeepsGone g g' := by
  rw [hc.data]
  exact ⟨rfl, fun q ⟨hlt, hq⟩ => ⟨Nat.lt_succ_of_lt hlt,
    write_eq_none.mpr ⟨Nat.ne_of_lt hlt, hq⟩⟩⟩

theorem GlobalData.KeepsGone.looked {key : Bytes} {r : Option Ptr} (hl : Looked g key g' r) :
    KeepsGone g g' := by
  rw [hl.data]
  exact .entries rfl rfl rfl

theorem GlobalData.Wf.owns (w : g.Wf) {p : Ptr} (he : g.entries p = some e) :
    e.node.ptr = p ∧ p < g.next := by
  refine ⟨(w.stored p e he).2.1, ?_⟩
  by_contra hle
  rw [w.fresh p (Nat.not_lt.mp hle)] at he
  cases he

/-- The node and the address of an entry do not change with its TTL. -/
theorem GlobalData.Wf.owns_retimed (w : g.Wf) {E : Store Entry} (hE : Retimed g.entries E) {p : Ptr}
    (he : E p = some e) : e.node.ptr = p ∧ p < g.next := by
  obtain ⟨e₀, he₀, hb⟩ := hE.before he
  have hnode : e.body.node = e₀.body.node := congrArg Entry.node hb
  have howns := w.owns he₀
  exact ⟨(congrArg HNode.ptr hnode).trans howns.1, howns.2⟩

/-- At most the last thing a step does to the entries is to give one away. -/
inductive GivesLast (g g' : GlobalData) : Prop
  | kept : KeepsGone g g' → GivesLast g g'
  | gave {g₁ : GlobalData} {p : Ptr} : KeepsGone g g₁ →
      (∀ e, g₁.entries p = some e → e.node.ptr = p ∧ p < g₁.next) → entryDel g₁ p = .ok g' →
      GivesLast g g'

/-- Every request but a `del` keeps what it has. -/
theorem effect_keepsGone (w : g.Wf) (h : Effect now g cmd g') :
    KeepsGone g g' ∨ ∃ key, cmd = [ascii "del", key] ∧ GivesLast g g' := by
  cases h with
  | idle => exact .inl (.entries rfl rfl rfl)
  | looked _ hl => exact .inl (.looked (lookupEntry_spec w hl))
  | ranked z _ hl he _ => exact .inl ((KeepsGone.looked (lookupEntry_spec w hl)).trans (.write he _))
  | timed _ hl ht =>
    refine .inl ((KeepsGone.looked (lookupEntry_spec w hl)).trans ?_)
    obtain ⟨hE, hg⟩ := entrySetTtl_ok ht
    exact ⟨by rw [hg], fun p hp => ⟨by rw [hg]; exact hp.1, hE.gone hp.2⟩⟩
  | stored hi =>
    obtain ⟨-, m, hc⟩ := insertEntry_spec w hi
    exact .inl (.created hc)
  | added z _ hl hi he =>
    have hl := lookupEntry_spec w hl
    obtain ⟨-, m, hc⟩ := insertEntry_spec hl.wf hi
    exact .inl (((KeepsGone.looked hl).trans (.created hc)).trans (.write he _))
  | missed _ => exact .inl (.entries rfl rfl rfl)
  | @deleted key db n g' hd hdel =>
    have hk : KeepsGone g { g with db := db } := .entries rfl rfl rfl
    exact .inr ⟨_, rfl, .gave hk (fun e he => w.owns he) hdel⟩

theorem expireTop_givesLast (w : g.Wf) (h : expireTop g = .ok g') : GivesLast g g' := by
  obtain ⟨top, htop, h⟩ := bind_ok.mp h
  obtain ⟨e, he, h⟩ := bind_ok.mp h
  obtain ⟨⟨db, r⟩, hd, h⟩ := bind_ok.mp h
  obtain ⟨u, -, h⟩ := bind_ok.mp h
  split at h
  · cases h
  obtain ⟨⟨E, a⟩, hr, h⟩ := bind_ok.mp h
  obtain ⟨E', hm, h⟩ := bind_ok.mp h
  obtain ⟨e₁, he₁, rfl⟩ := Store.modify_ok.mp hm
  have hretimed : Retimed g.entries (E.write top.ref { e₁ with heapIdx := none }) :=
    (heapRemove_retimed hr).trans (.write he₁ rfl)
  have hk : KeepsGone g { g with
      db := db, entries := E.write top.ref { e₁ with heapIdx := none }, heap := a } :=
    ⟨rfl, fun p hp => ⟨hp.1, hretimed.gone hp.2⟩⟩
  exact .gave hk (fun e' he' => w.owns_retimed hretimed he') h

/-- `entry_del` gives away an entry that was the server's. -/
theorem entryDel_given {p : Ptr} (hg : g.Given)
    (hp : ∀ e, g.entries p = some e → e.node.ptr = p ∧ p < g.next) (h : entryDel g p = .ok g') :
    g'.Given := by
  obtain ⟨e, he, h⟩ := bind_ok.mp h
  obtain ⟨hnode, hlt⟩ := hp e (Store.read_ok.mp he)
  have he := Store.read_ok.mp he
  have hfree : ∀ q, q < g.next ∧ g.entries q = none → q < g.next ∧ g.entries.free p q = none := by
    intro q ⟨hq, hnone⟩
    refine ⟨hq, ?_⟩
    by_cases hqp : q = p
    · rw [hqp, Store.free_self]
    · rw [Store.free_of_ne _ hqp, hnone]
  dsimp only at h
  split at h
  · cases h
    constructor
    · intro e' he'
      rcases List.mem_append.mp he' with he' | he'
      · exact hfree _ (hg.gone e' he')
      · rw [List.mem_singleton.mp he', hnode]
        exact ⟨hlt, Store.free_self _ _⟩
    · show ((g.tp ++ [e]).map fun e => e.node.ptr).Nodup
      rw [List.map_append, List.map_singleton, List.nodup_append]
      refine ⟨hg.once, List.nodup_singleton _, ?_⟩
      intro a ha b hb hab
      obtain ⟨e', he', rfl⟩ := List.mem_map.mp ha
      rw [List.mem_singleton.mp hb, hnode] at hab
      have hgone := (hg.gone e' he').2
      rw [hab, he] at hgone
      cases hgone
  · cases h
    exact ⟨fun e' he' => hfree _ (hg.gone e' he'), hg.once⟩

theorem GivesLast.given (h : GivesLast g g') (hg : g.Given) : g'.Given := by
  cases h with
  | kept hk => exact hk.given hg
  | gave hk howns hdel => exact entryDel_given (hk.given hg) howns hdel

/-- What was queued stays on record. -/
theorem GivesLast.subset (h : GivesLast g g') : g.tp ⊆ g'.tp := by
  cases h with
  | kept hk => rw [hk.tp]; exact List.Subset.refl _
  | gave hk howns hdel =>
    obtain ⟨e, -, hdel⟩ := bind_ok.mp hdel
    rw [← hk.tp]
    dsimp only at hdel
    split at hdel
    · cases hdel
      exact List.subset_append_left _ _
    · cases hdel
      exact List.Subset.refl _

theorem serve_given (g : GlobalData) (ev : Event) (g' : GlobalData) (w : g.Wf)
    (h : serve lim g ev = .ok g') : g'.Wf ∧ (g.Given → g'.Given) ∧ g.tp ⊆ g'.tp := by
  refine serve_invariant (I := fun g' => g'.Wf ∧ (g.Given → g'.Given) ∧ g.tp ⊆ g'.tp) ?_ ?_
    ⟨w, id, List.Subset.refl _⟩ (meets_true g ev) h
  · rintro now g₁ cmd g₂ ⟨w, hg, htp⟩ - he
    have hgives : GivesLast g₁ g₂ := by
      rcases effect_keepsGone w he with hk | ⟨key, -, hgives⟩
      · exact .kept hk
      · exact hgives
    exact ⟨(he.change w).wf w, fun h₀ => hgives.given (hg h₀), fun _ hm => hgives.subset (htp hm)⟩
  · rintro g₁ g₂ ⟨w, hg, htp⟩ - he
    have hgives := expireTop_givesLast w he
    exact ⟨(expireTop_change w he).wf w, fun h₀ => hgives.given (hg h₀), fun _ hm => hgives.subset (htp hm)⟩

/-! ## The shared memory -/

/-- The shared memory of the process and the data of the main thread on its own.  `B` are the
entries in the hands of the thread pool, `log` what was answered so far. -/
structure Tracks (log : List (ResCode × Bytes)) (B : Store Entry) (g : GlobalData) (s : Process) :
    Prop where
  data : s.data = g.withEntries s.data.entries
  beside : Beside B g s.data.entries
  held : ∀ p, (∃ e, B p = some e) ↔ p ∈ s.tp.pending
  sets : ∀ p e z, B p = some e → e.zset = some z → ∃ e' ∈ g.tp, e'.zset = some z
  once : (s.freed ++ s.tp.pending).Perm (g.tp.map fun e => e.node.ptr)
  answers : s.answers = log

theorem Tracks.db (t : Tracks log B g s) : s.data.db = g.db :=
  (congrArg GlobalData.db t.data).trans rfl

theorem Tracks.heap (t : Tracks log B g s) : s.data.heap = g.heap :=
  (congrArg GlobalData.heap t.data).trans rfl

/-- What the main thread does to its own entries. -/
theorem Tracks.along {F' : Store Entry} (t : Tracks log B g s) (h : Beside B g' F') (htp : g'.tp = g.tp) :
    Tracks log B g' { s with data := g'.withEntries F' } where
  data := rfl
  beside := h
  held := t.held
  sets := htp ▸ t.sets
  once := htp ▸ t.once
  answers := t.answers

/-- What the other threads do to the queue. -/
theorem Tracks.pool {tp' : ThreadPool} (t : Tracks log B g s) (hp : tp'.pending.Perm s.tp.pending) :
    Tracks log B g { s with tp := tp' } where
  data := t.data
  beside := t.beside
  held p := (t.held p).trans hp.mem_iff.symm
  sets := t.sets
  once := (hp.append_left _).trans t.once
  answers := t.answers

theorem Tracks.entryDel {p : Ptr} (t : Tracks log B g s)
    (hp : ∀ e, g.entries p = some e → e.node.ptr = p ∧ p < g.next) :
    Follows (fun g' s' => ∃ B', Tracks log B' g' s') (entryDel g p) (s.entryDel p) := by
  unfold RedisServer.entryDel Process.entryDel
  refine (t.beside.read p).bind ?_
  rintro e _ ⟨rfl, he⟩
  obtain ⟨hnode, hlt⟩ := hp e he
  dsimp only
  split
  · have hq := pending_queue s.tp (some threadedZSetDestructor) p (s.picks.headD 0)
    refine .ok ⟨B.write p e, ?_, (t.beside.handOver he hlt).congr rfl rfl, ?_, ?_, ?_,
      t.answers⟩
    · exact congrArg (fun d : GlobalData => { d with tp := d.tp ++ [e] }) t.data
    · intro q
      rw [hq.mem_iff, List.mem_cons, ← t.held q]
      by_cases hqp : q = p
      · simp [hqp]
      · simp [Store.write_of_ne _ _ hqp, hqp]
    · intro q e' z he' hz
      by_cases hqp : q = p
      · rw [hqp, Store.write_self] at he'
        cases he'
        exact ⟨e, List.mem_append_right _ List.mem_cons_self, hz⟩
      · rw [Store.write_of_ne _ _ hqp] at he'
        obtain ⟨e₁, he₁, hz₁⟩ := t.sets q e' z he' hz
        exact ⟨e₁, List.mem_append_left _ he₁, hz₁⟩
    · show (s.freed ++ _).Perm ((g.tp ++ [e]).map fun e => e.node.ptr)
      rw [List.map_append, List.map_singleton, hnode]
      refine (hq.append_left _).trans (List.perm_middle.trans ?_)
      exact (t.once.cons p).trans (List.perm_append_singleton p _).symm
  · refine .ok ⟨B, ?_, t.beside.free he, t.held, t.sets, t.once, t.answers⟩
    exact congrArg (fun d : GlobalData => { d with entries := s.data.entries.free p }) t.data

/-- The same answer, and the states still belong together. -/
def Matches (log : List (ResCode × Bytes)) (r : GlobalData × ResCode × Bytes)
    (r' : Process × ResCode × Bytes) : Prop :=
  r'.2 = r.2 ∧ ∃ B, Tracks log B r.1 r'.1

theorem Tracks.doDel (t : Tracks log B g s) (w : g.Wf) (cmd : List Bytes) (out : Bytes) :
    Follows (Matches log) (doDel g cmd out) (s.doDel cmd out) := by
  unfold RedisServer.doDel Process.doDel
  rw [t.db]
  refine .bind_same fun key => (hmDelete_follows (t.beside.entryEq key) g.db).bind ?_
  rintro ⟨db, r⟩ _ rfl
  have t₁ : Tracks log B { g with db := db } { s with data := { s.data with db := db } } :=
    have hdata : ({ s.data with db := db } : GlobalData) =
        ({ g with db := db } : GlobalData).withEntries s.data.entries :=
      congrArg (fun d : GlobalData => { d with db := db }) t.data
    hdata ▸ t.along (t.beside.congr rfl rfl) rfl
  cases r with
  | none => exact .ok ⟨rfl, B, t₁⟩
  | some n =>
    refine (t₁.entryDel fun e he => w.owns he).bind ?_
    rintro g' s' ⟨B', t'⟩
    exact .ok ⟨rfl, B', t'⟩

theorem Tracks.doRequest (t : Tracks log B g s) (w : g.Wf) (cmd : List Bytes) :
    Follows (Matches log) (doRequest lim now g cmd []) (s.doRequest lim now cmd []) := by
  unfold Process.doRequest
  by_cases hdel : cmd.head? = some (ascii "del") ∧ cmd.length = 2
  · rw [if_pos hdel]
    match cmd, hdel with
    | [_, key], ⟨rfl, _⟩ => exact t.doDel w _ _
  · rw [if_neg hdel]
    rintro ⟨g', code, out⟩ h
    have hb : Follows (Alongside B) _ (RedisServer.doRequest lim now (g.withEntries s.data.entries)
      cmd []) := doRequest_beside t.beside hdel []
    rw [← t.data] at hb
    obtain ⟨_, hr, F', rfl, h'⟩ := hb _ h
    have htp : g'.tp = g.tp := by
      rcases effect_keepsGone w (doRequest_effect h) with hk | ⟨key, rfl, -⟩
      · exact hk.tp
      · exact absurd ⟨rfl, rfl⟩ hdel
    exact ⟨_, bind_ok.mpr ⟨_, hr, rfl⟩, rfl, B, t.along h' htp⟩

theorem Tracks.expireTop (t : Tracks log B g s) (w : g.Wf) :
    Follows (fun g' s' => ∃ B', Tracks log B' g' s') (expireTop g) s.expireTop := by
  unfold RedisServer.expireTop Process.expireTop
  rw [t.db, t.heap]
  refine .bind_same fun top => (t.beside.read top.ref).bind ?_
  rintro e _ ⟨rfl, he⟩
  refine (hmDelete_follows (t.beside.entryEq e.key) g.db).bind ?_
  rintro ⟨db, r⟩ _ rfl
  refine .bind_same fun _ => ?_
  cases e.heapIdx with
  | none => exact .error _ _
  | some pos =>
    rintro g' h
    obtain ⟨⟨E, a⟩, hr, h⟩ := bind_ok.mp h
    obtain ⟨E', hm, h⟩ := bind_ok.mp h
    obtain ⟨F₁, hF₁, h₁⟩ := t.beside.removed hr
    obtain ⟨e₁, he₁, rfl⟩ := Store.modify_ok.mp hm
    have hretimed : Retimed g.entries (E.write top.ref { e₁ with heapIdx := none }) :=
      (heapRemove_retimed hr).trans (.write he₁ rfl)
    have h₂ := h₁.write he₁ { e₁ with heapIdx := none }
    have hF₂ := Store.modify_of (fun e : Entry => { e with heapIdx := none }) (h₁.more _ _ he₁)
    have h₃ : Beside B { g with
        db := db, entries := E.write top.ref { e₁ with heapIdx := none }, heap := a }
        (F₁.write top.ref { e₁ with heapIdx := none }) := h₂.congr rfl rfl
    have t₂ := t.along h₃ rfl
    obtain ⟨s', hs', B', t'⟩ := t₂.entryDel (fun e he => w.owns_retimed hretimed he) g' h
    have hdata : ({ s.data with
        db := db
        entries := F₁.write top.ref { e₁ with heapIdx := none }
        heap := a } : GlobalData) =
        ({ g with db := db, heap := a } : GlobalData).withEntries
          (F₁.write top.ref { e₁ with heapIdx := none }) :=
      congrArg (fun d : GlobalData => { d with
        db := db
        entries := F₁.write top.ref { e₁ with heapIdx := none }
        heap := a }) t.data
    exact ⟨s', bind_ok.mpr ⟨_, hF₁, bind_ok.mpr ⟨_, hF₂,
      (congrArg (fun d => Process.entryDel { s with data := d } top.ref) hdata).trans hs'⟩⟩, B', t'⟩

theorem Tracks.expireLoop : ∀ (n : Nat) {B : Store Entry} {g : GlobalData} {s : Process},
    Tracks log B g s → g.Wf →
    Follows (fun g' s' => ∃ B', Tracks log B' g' s') (expireLoop now n g) (s.expireLoop now n)
  | 0, B, _, _, t, _ => .ok ⟨B, t⟩
  | n + 1, B, g, s, t, w => by
    unfold RedisServer.expireLoop Process.expireLoop
    rw [t.heap]
    cases hheap : g.heap with
    | nil => exact .ok ⟨B, t⟩
    | cons top rest =>
      refine .ite ?_ (.ok ⟨B, t⟩)
      intro g₂ h
      obtain ⟨g₁, h₁, h⟩ := bind_ok.mp h
      obtain ⟨s₁, hs₁, B₁, t₁⟩ := t.expireTop w g₁ h₁
      obtain ⟨s₂, hs₂, h₂⟩ := Tracks.expireLoop n t₁ ((expireTop_change w h₁).wf w) g₂ h
      exact ⟨s₂, bind_ok.mpr ⟨s₁, hs₁, hs₂⟩, h₂⟩

/-! ## The other threads -/

theorem jobOf_pending {i : Nat} {p : Ptr} (h : s.jobOf i = some p) : p ∈ s.tp.pending :=
  (pending_done h).mem_iff.mp List.mem_cons_self

/-- What a worker finds at the address of its job. -/
theorem Tracks.job {p : Ptr} (t : Tracks log B g s) (h : p ∈ s.tp.pending) :
    g.entries p = none ∧ p < g.next ∧ ∃ b e, B p = some b ∧ s.data.entries p = some e ∧
      e.zset = b.zset := by
  obtain ⟨b, hb⟩ := (t.held p).mpr h
  obtain ⟨hlt, hnone⟩ := t.beside.apart p b hb
  have hbody := t.beside.rest p hnone
  rw [hb] at hbody
  obtain ⟨e, he, heq⟩ := Option.map_eq_some_iff.mp hbody
  have hzset : e.body.zset = b.body.zset := congrArg Entry.zset heq
  exact ⟨hnone, hlt, b, e, hb, he, hzset⟩

/-- An entry that no thread but its worker knows is changed. -/
theorem Beside.rewrite {F : Store Entry} {p : Ptr} {b : Entry} (h : Beside B g F)
    (hb : B p = some b) (e : Entry) : Beside (B.write p e) g (F.write p e) := by
  obtain ⟨hlt, hnone⟩ := h.apart p b hb
  constructor
  · intro q e' he'
    have hne : q ≠ p := by
      rintro rfl
      rw [hnone] at he'
      cases he'
    exact (Store.write_of_ne _ _ hne).trans (h.more q e' he')
  · intro q hq
    by_cases hqp : q = p
    · rw [hqp, Store.write_self, Store.write_self]
    · rw [Store.write_of_ne _ _ hqp, Store.write_of_ne _ _ hqp]
      exact h.rest q hq
  · intro q e' he'
    by_cases hqp : q = p
    · rw [hqp]
      exact ⟨hlt, hnone⟩
    · rw [Store.write_of_ne _ _ hqp] at he'
      exact h.apart q e' he'

theorem Beside.drop {F : Store Entry} {p : Ptr} {b : Entry} (h : Beside B g F)
    (hb : B p = some b) : Beside (B.free p) g (F.free p) := by
  obtain ⟨hlt, hnone⟩ := h.apart p b hb
  constructor
  · intro q e' he'
    have hne : q ≠ p := by
      rintro rfl
      rw [hnone] at he'
      cases he'
    exact Store.free_eq_some.mpr ⟨hne, h.more q e' he'⟩
  · intro q hq
    by_cases hqp : q = p
    · rw [hqp, Store.free_self, Store.free_self]
    · rw [Store.free_of_ne _ hqp, Store.free_of_ne _ hqp]
      exact h.rest q hq
  · intro q e' he'
    exact h.apart q e' (Store.free_eq_some.mp he').2

/-- What the destructors need of the sets that were queued. -/
def GlobalData.Destroyable (lim : Limits) (g : GlobalData) : Prop :=
  ∀ e ∈ g.tp, ∀ z, e.zset = some z → ∃ t, z.TreeShaped t ∧ BinaryTree.height t ≤ lim.steps

theorem Tracks.deleteZSet {i : Nat} (t : Tracks log B g s) (hd : g.Destroyable lim)
    (hi : (s.jobOf i).isSome) :
    ∃ s', s.deleteZSet lim i = .ok s' ∧ ∃ B', Tracks log B' g s' := by
  obtain ⟨p, hp⟩ := Option.isSome_iff_exists.mp hi
  obtain ⟨hnone, hlt, b, e, hb, he, hzset⟩ := t.job (jobOf_pending hp)
  unfold Process.deleteZSet
  rw [hp, deref_some, ok_bind, Store.read_of he, ok_bind]
  cases hz : e.zset with
  | none => exact ⟨_, rfl, B, t.data, t.beside, t.held, t.sets, t.once, t.answers⟩
  | some z =>
    obtain ⟨e', he', hz'⟩ := t.sets p b z hb (hzset ▸ hz)
    obtain ⟨tree, htree, hheight⟩ := hd e' he' z hz'
    have hfree := destroy_ok_iff.mpr ⟨tree, htree, hheight, rfl⟩
    refine ⟨_, bind_ok.mpr ⟨_, hfree, rfl⟩, B.write p { e with zset := none }, ?_,
      t.beside.rewrite hb _, ?_, ?_, t.once, t.answers⟩
    · exact congrArg (fun d : GlobalData => { d with
        entries := s.data.entries.write p { e with zset := none } }) t.data
    · intro q
      rw [← t.held q]
      by_cases hqp : q = p
      · simp [hqp, hb]
      · rw [Store.write_of_ne _ _ hqp]
    · intro q e₁ z₁ he₁ hz₁
      by_cases hqp : q = p
      · rw [hqp, Store.write_self] at he₁
        cases he₁
        cases hz₁
      · rw [Store.write_of_ne _ _ hqp] at he₁
        exact t.sets q e₁ z₁ he₁ hz₁

theorem Tracks.deleteEntry {i : Nat} (t : Tracks log B g s) (hg : g.Given)
    (hi : (s.jobOf i).isSome) :
    ∃ s', s.deleteEntry i = .ok s' ∧ ∃ B', Tracks log B' g s' := by
  obtain ⟨p, hp⟩ := Option.isSome_iff_exists.mp hi
  obtain ⟨hnone, hlt, b, e, hb, he, -⟩ := t.job (jobOf_pending hp)
  have hdone := pending_done hp
  have hnodup : (s.freed ++ s.tp.pending).Nodup := t.once.nodup_iff.mpr hg.once
  have hnotMem := (List.nodup_cons.mp (hdone.nodup_iff.mpr (List.nodup_append.mp hnodup).2.1)).1
  unfold Process.deleteEntry
  rw [hp, deref_some, ok_bind, Store.read_of he, ok_bind]
  refine ⟨_, rfl, B.free p, ?_, t.beside.drop hb, ?_, ?_, ?_, t.answers⟩
  · exact congrArg (fun d : GlobalData => { d with entries := s.data.entries.free p }) t.data
  · intro q
    have hq := (t.held q).trans hdone.mem_iff.symm
    by_cases hqp : q = p
    · subst hqp
      simp [hnotMem]
    · rw [List.mem_cons, or_iff_right hqp] at hq
      rw [Store.free_of_ne _ hqp]
      exact hq
  · exact fun q e' z he' hz => t.sets q e' z (Store.free_eq_some.mp he').2 hz
  · show ((s.freed ++ [p]) ++ _).Perm _
    rw [List.append_assoc]
    exact (hdone.append_left _).trans t.once

theorem worker_total (tp : ThreadPool) (i : Nat) : ∃ r, worker tp i = .ok r := by
  unfold worker
  cases tp.queue <;> exact ⟨_, rfl⟩

/-! ## Runs -/

/-- What ties the two systems together. -/
def Joined (r : GlobalData × List (ResCode × Bytes)) (s : Process) : Prop :=
  r.1.Wf ∧ r.1.Given ∧ ∃ B, Tracks r.2 B r.1 s

theorem answering_serve {r r' : GlobalData × List (ResCode × Bytes)} {ev : Event}
    (h : answering lim r ev = .ok r') : serve lim r.1 ev = .ok r'.1 := by
  cases ev with
  | request now cmd =>
    obtain ⟨⟨g, code, out⟩, hreq, h⟩ := bind_ok.mp h
    cases h
    exact serve_request.mpr ⟨code, out, hreq⟩
  | timers now =>
    obtain ⟨g, hg, h⟩ := bind_ok.mp h
    cases h
    exact hg

theorem main_joined {r : GlobalData × List (ResCode × Bytes)} {ev : Event} (h : Joined r s) :
    Follows Joined (answering lim r ev) (s.step lim (.main ev)) := by
  obtain ⟨w, hg, B, t⟩ := h
  intro r' hr
  obtain ⟨w', hgiven, -⟩ := serve_given r.1 ev r'.1 w (answering_serve hr)
  have hg' := hgiven hg
  cases ev with
  | request now cmd =>
    obtain ⟨⟨g', code, out⟩, hreq, hr⟩ := bind_ok.mp hr
    cases hr
    obtain ⟨⟨s', answer⟩, hs, hanswer, B', t'⟩ := t.doRequest w cmd _ hreq
    have hanswer : answer = (code, out) := hanswer
    refine ⟨_, bind_ok.mpr ⟨_, hs, rfl⟩, w', hg', B', ?_⟩
    exact ⟨t'.data, t'.beside, t'.held, t'.sets, t'.once, by rw [t'.answers, hanswer]⟩
  | timers now =>
    obtain ⟨g', hg₁, hr⟩ := bind_ok.mp hr
    cases hr
    obtain ⟨s', hs, B', t'⟩ := t.expireLoop _ w g' hg₁
    exact ⟨s', hs, w', hg', B', t'⟩

/-- A set queued on the way to `last` is still on record there. -/
theorem Destroyable.before {r last : GlobalData × List (ResCode × Bytes)} (w : r.1.Wf)
    (h : ∃ evs, run (answering lim) r evs = .ok last) (hd : last.1.Destroyable lim) :
    r.1.Destroyable lim := by
  obtain ⟨evs, h⟩ := h
  have hsub : last.1.Wf ∧ r.1.tp ⊆ last.1.tp := by
    refine run_invariant_all (I := fun r' => r'.1.Wf ∧ r.1.tp ⊆ r'.1.tp) ?_
      ⟨w, List.Subset.refl _⟩ h
    rintro r₁ ev r₂ ⟨w₁, hsub⟩ hstep
    obtain ⟨w₂, -, hstep⟩ := serve_given r₁.1 ev r₂.1 w₁ (answering_serve hstep)
    exact ⟨w₂, fun _ hm => hstep (hsub hm)⟩
  exact fun e he => hd e (hsub.2 he)

/-- **The step lemma of the other threads**: a worker neither faults nor changes anything that the
main thread can see. -/
theorem worker_joined {r last : GlobalData × List (ResCode × Bytes)} {e : ProcessEvent}
    (hother : e.ofMain = none) (h : Joined r s) (hen : s.Enabled e)
    (hlast : ∃ evs, run (answering lim) r evs = .ok last) (hd : last.1.Destroyable lim) :
    ∃ s', s.step lim e = .ok s' ∧ Joined r s' := by
  obtain ⟨w, hg, B, t⟩ := h
  cases e with
  | main ev => cases hother
  | lock i =>
    obtain ⟨⟨tp', job⟩, hlock⟩ := worker_total s.tp i
    have hperm : tp'.pending.Perm s.tp.pending := by
      rcases hen with hi | hi
      · exact pending_lock hlock hi rfl
      · exact pending_lock hlock hi rfl
    exact ⟨_, bind_ok.mpr ⟨_, hlock, rfl⟩, w, hg, B, t.pool hperm⟩
  | spurious i => exact ⟨_, rfl, w, hg, B, t.pool (pending_set hen rfl rfl _)⟩
  | deleteZSet i =>
    obtain ⟨s', hs, B', t'⟩ := t.deleteZSet (Destroyable.before w hlast hd) hen.1
    exact ⟨s', hs, w, hg, B', t'⟩
  | deleteEntry i =>
    obtain ⟨s', hs, B', t'⟩ := t.deleteEntry hg hen.1
    exact ⟨s', hs, w, hg, B', t'⟩

theorem joined_start {n : Nat} (h : threadPoolInit n = .ok tp) (picks : List Nat) :
    Joined ({}, []) { data := {}, tp := tp, picks := picks } := by
  obtain ⟨u, -, h⟩ := bind_ok.mp h
  cases h
  have hpending : ThreadPool.pending { threads := List.replicate n .locking } = [] := by
    unfold ThreadPool.pending
    rw [List.filterMap_replicate_of_none rfl]
    rfl
  refine ⟨.empty, ⟨nofun, .nil⟩, Store.empty, rfl, ⟨.refl _, fun _ _ => rfl, nofun⟩, ?_, nofun, ?_,
    rfl⟩
  · intro p
    rw [hpending]
    exact iff_of_false (fun ⟨e, he⟩ => nomatch he) List.not_mem_nil
  · rw [hpending]
    exact .nil

/-- **Destruction in the background is invisible and clean.**  If the main thread, on its own,
serves its requests and timer passes without a fault, and the sets it queues are tree-shaped, then
for any number of workers and any interleaving with them nobody faults, the answers are the same,
and the memory holds the main thread's entries and those in the workers' hands, no more and no
less; every entry queued is deleted by one worker, once. -/
theorem deferred_destruction (lim : Limits) {n : Nat} {tp : ThreadPool}
    (hinit : threadPoolInit n = .ok tp) (picks : List Nat) (events : List ProcessEvent)
    {g : GlobalData} {log : List (ResCode × Bytes)}
    (hmain : run (answering lim) ({}, []) (events.filterMap ProcessEvent.ofMain) = .ok (g, log))
    (hsets : g.Destroyable lim)
    (hen : AllSteps (Process.step lim) Process.Enabled { data := {}, tp := tp, picks := picks }
      events) :
    ∃ s, run (Process.step lim) { data := {}, tp := tp, picks := picks } events = .ok s ∧
      s.answers = log ∧ (∀ p e, g.entries p = some e → s.data.entries p = some e) ∧
      (∀ p, g.entries p = none → ((s.data.entries p).isSome ↔ p ∈ s.tp.pending)) ∧
      (s.freed ++ s.tp.pending).Nodup ∧
      (s.freed ++ s.tp.pending).Perm (g.tp.map fun e => e.node.ptr) := by
  obtain ⟨s, hrun, -, hg, B, t⟩ := run_interleaved ProcessEvent.ofMain (R := Joined)
    (fun r s e ev hev h _ => by
      cases e with
      | main ev' =>
        cases hev
        exact main_joined h
      | lock i => cases hev
      | spurious i => cases hev
      | deleteZSet i => cases hev
      | deleteEntry i => cases hev)
    (fun r s e hother h he hlast => worker_joined hother h he hlast hsets)
    (joined_start hinit picks) hen hmain
  refine ⟨s, hrun, t.answers, t.beside.more, ?_, t.once.nodup_iff.mpr hg.once, t.once⟩
  intro p hp
  rw [← t.held p, ← Option.isSome_iff_exists, ← Option.isSome_map, t.beside.rest p hp,
    Option.isSome_map]

/-- Two sets are deleted, one of them by a worker that was never woken for it, while the main thread
goes on. -/
def twoSets : List ProcessEvent :=
  [.lock 0, .main (ask 1 ["zadd", "k", "1", "a"]), .main (ask 2 ["zadd", "k", "2", "b"]),
    .main (ask 3 ["del", "k"]), .lock 1, .main (ask 4 ["zadd", "k", "3", "c"]), .deleteZSet 1,
    .main (ask 5 ["del", "k"]), .lock 0, .main (ask 6 ["set", "k", "v"]), .deleteEntry 1,
    .deleteZSet 0, .main (ask 7 ["get", "k"]), .lock 1]

theorem deferred_destruction_two : ∃ g log s,
    run (answering ⟨64, 0⟩) ({}, []) (twoSets.filterMap ProcessEvent.ofMain) = .ok (g, log) ∧
      run (Process.step ⟨64, 0⟩) { data := {}, tp := ⟨[.locking, .locking], []⟩ } twoSets = .ok s ∧
      s.answers = log ∧ (s.freed ++ s.tp.pending).Nodup := by
  have hsets : (run (answering ⟨64, 0⟩) ({}, []) (twoSets.filterMap ProcessEvent.ofMain)).toOption.map
      (fun r => r.1.tp.all fun e => e.zset.all fun z => (z.destroy ⟨64, 0⟩).toOption.isSome) =
      some true := by decide +kernel
  obtain ⟨⟨g, log⟩, hmain, hsets⟩ := ok_of_map hsets
  have hd : g.Destroyable ⟨64, 0⟩ := by
    intro e he z hz
    have hz := List.all_eq_true.mp hsets e he
    rw [‹e.zset = some z›] at hz
    obtain ⟨z', hz'⟩ := ok_of_isSome hz
    obtain ⟨t, ht, hheight, -⟩ := destroy_ok_iff.mp hz'
    exact ⟨t, ht, hheight⟩
  obtain ⟨s, hrun, hanswers, -, -, hnodup, -⟩ := deferred_destruction ⟨64, 0⟩
    (show threadPoolInit 2 = .ok ⟨[.locking, .locking], []⟩ from rfl) [] twoSets hmain hd
    (by decide +kernel)
  exact ⟨g, log, s, hmain, hrun, hanswers, hnodup⟩

end RedisServer
