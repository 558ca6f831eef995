import RedisServer.Responses
import RedisServer.SortedSetIndex

/-!
# Requests that fail

A handler that answers `RES_ERR` or `RES_NX` may have looked up a key, and `do_zscore` a member:
both move nodes between the two tables of a hash map.  `SameData` is what such a move leaves alone.

The lookup of a member has to find the index of its sorted set in order, so the handlers are gone
through once for two results (`Serves`): every request keeps the index of every stored sorted set in
order, and a failed one keeps the data.
-/

set_option autoImplicit false

namespace RedisServer

open Runs GlobalData

variable {lim : Limits} {now : UInt64} {g g₁ g' : GlobalData} {key out out' : Bytes}
  {code : ResCode}

/-! ## The same data -/

/-- Only the index differs, and it links the same nodes. -/
def ZSet.Rehashed (z z' : ZSet) : Prop :=
  z' = { z with hmap := z'.hmap } ∧ z'.hmap.order.Perm z.hmap.order

/-- Only the index of the sorted set differs. -/
def Entry.Rehashed (e e' : Entry) : Prop :=
  e' = { e with zset := e'.zset } ∧ Option.Rel ZSet.Rehashed e.zset e'.zset

/-- The same nodes are linked; each entry has its key, value, type, members and `heap_idx`; the TTL
heap is the same. -/
structure SameData (g g' : GlobalData) : Prop where
  linked : g'.db.order.Perm g.db.order
  entries : ∀ p, Option.Rel Entry.Rehashed (g.entries p) (g'.entries p)
  heap : g'.heap = g.heap
  next : g'.next = g.next
  tp : g'.tp = g.tp

theorem Entry.Rehashed.refl (e : Entry) : e.Rehashed e := by
  refine ⟨rfl, ?_⟩
  cases e.zset with
  | none => exact .none
  | some z => exact .some ⟨rfl, .refl _⟩

theorem rel_rehashed_refl (o : Option Entry) : Option.Rel Entry.Rehashed o o := by
  cases o with
  | none => exact .none
  | some e => exact .some (.refl e)

theorem SameData.refl (g : GlobalData) : SameData g g :=
  ⟨.refl _, fun p => rel_rehashed_refl (g.entries p), rfl, rfl, rfl⟩

theorem GlobalData.Looked.sameData {r : Option Ptr} (hl : Looked g key g' r) : SameData g g' := by
  obtain ⟨k, hk⟩ := hl.helped
  rw [hl.data]
  exact ⟨hk.perm, fun p => rel_rehashed_refl (g.entries p), rfl, rfl, rfl⟩

/-- Looking up a key, and a member under it. -/
theorem sameData_member {p : Ptr} {e : Entry} {z z' : ZSet}
    (hl : Looked g key g₁ (some p)) (he : g₁.entries p = some e) (hz : e.zset = some z)
    (hzz : z.Rehashed z') :
    SameData g { g₁ with entries := g₁.entries.write p { e with zset := some z' } } := by
  obtain ⟨k, hk⟩ := hl.helped
  rw [hl.data] at he ⊢
  refine ⟨hk.perm, ?_, rfl, rfl, rfl⟩
  intro q
  by_cases hq : q = p
  · subst hq
    have he : g.entries q = some e := he
    simp only [he, Store.write_self]
    exact .some ⟨rfl, by rw [hz]; exact .some hzz⟩
  · simp only [Store.write_of_ne _ _ hq]
    exact rel_rehashed_refl (g.entries q)

/-! ## The indexes of the stored sorted sets -/

def SetsIndexed (E : Store Entry) : Prop :=
  ∀ p e z, E p = some e → e.zset = some z → z.Indexed

theorem SetsIndexed.empty : SetsIndexed Store.empty := fun p e z he => by cases he

theorem SetsIndexed.write {E : Store Entry} (h : SetsIndexed E) {p : Ptr} {e : Entry}
    (hz : ∀ z, e.zset = some z → z.Indexed) : SetsIndexed (E.write p e) := by
  intro q e' z he' hz'
  by_cases hq : q = p
  · subst hq
    cases (Store.write_self E q e).symm.trans he'
    exact hz z hz'
  · exact h q e' z ((Store.write_of_ne _ _ hq).symm.trans he') hz'

theorem SetsIndexed.put {E : Store Entry} (h : SetsIndexed E) {p : Ptr} {e : Entry} {z : ZSet}
    (hz : z.Indexed) : SetsIndexed (E.write p { e with zset := some z }) :=
  h.write fun z' hz' => by
    cases hz'
    exact hz

theorem SetsIndexed.free {E : Store Entry} (h : SetsIndexed E) (p : Ptr) :
    SetsIndexed (E.free p) := fun q e z he => h q e z (Store.free_eq_some.mp he).2

theorem SetsIndexed.retimed {E E' : Store Entry} (h : SetsIndexed E) (hr : Retimed E E') :
    SetsIndexed E' := by
  intro p e' z he' hz
  obtain ⟨e, he, hb⟩ := hr.before he'
  have hzset : e'.body.zset = e.body.zset := by rw [hb]
  exact h p e z he (hzset.symm.trans hz)

theorem SetsIndexed.looked {r : Option Ptr} (h : SetsIndexed g.entries) (hl : Looked g key g' r) :
    SetsIndexed g'.entries := hl.entries ▸ h

theorem SetsIndexed.created {e : Entry} {m : HMap} (h : SetsIndexed g.entries)
    (hc : Created g e m g') (hz : ∀ z, e.zset = some z → z.Indexed) : SetsIndexed g'.entries := by
  rw [hc.data]
  exact h.write hz

/-! ## The handlers -/

/-- What a handler that returns has done. -/
structure Serves (g : GlobalData) (code : ResCode) (g' : GlobalData) : Prop where
  indexed : SetsIndexed g'.entries
  intact : code ≠ .RES_OK → SameData g g'

theorem Serves.same (h : SetsIndexed g.entries) : Serves g code g := ⟨h, fun _ => .refl g⟩

theorem Serves.looked {r : Option Ptr} (h : SetsIndexed g.entries) (hl : Looked g key g' r) :
    Serves g code g' := ⟨h.looked hl, fun _ => hl.sameData⟩

theorem Serves.ok (h : SetsIndexed g'.entries) : Serves g .RES_OK g' :=
  ⟨h, fun hne => absurd rfl hne⟩

theorem ZSet.LooksUp.rehashed {z z' : ZSet} {name : Bytes} {r : Option Ptr}
    (h : z.LooksUp name z' r) : z.Rehashed z' := ⟨h.eq, h.perm⟩

variable (w : g.Wf) (hi : SetsIndexed g.entries)

include w hi

theorem doSet_serves {val : Bytes}
    (h : doSet g [ascii "set", key, val] out = .ok (g', code, out')) : Serves g code g' := by
  unfold doSet at h
  rw [bind_arg key rfl, bind_arg val rfl] at h
  obtain ⟨⟨g₁, p⟩, hins, h⟩ := bind_ok.mp h
  cases h
  obtain ⟨-, m, hc⟩ := insertEntry_spec w hins
  exact .ok (hi.created hc fun z hz => by cases hz)

theorem doDel_serves (h : doDel g [ascii "del", key] out = .ok (g', code, out')) :
    Serves g code g' := by
  unfold doDel at h
  rw [bind_arg key rfl] at h
  obtain ⟨⟨db, r⟩, hd, h⟩ := bind_ok.mp h
  cases r with
  | none =>
    cases h
    exact .ok hi
  | some n =>
    obtain ⟨g₁, he, h⟩ := bind_ok.mp h
    cases h
    refine .ok ?_
    rw [(deleted_spec w hd he).2.2]
    exact hi.free n.ptr

theorem doExpire_serves {s : Bytes}
    (h : doExpire g now [ascii "expire", key, s] out = .ok (g', code, out')) :
    Serves g code g' := by
  unfold doExpire at h
  rw [bind_arg s rfl] at h
  cases ht : str2int s with
  | none =>
    rw [ht] at h
    cases h
    exact .same hi
  | some ttlMs =>
    rw [ht] at h
    dsimp only at h
    rw [bind_arg key rfl] at h
    obtain ⟨⟨g₁, r⟩, hl, h⟩ := bind_ok.mp h
    have hl := lookupEntry_spec w hl
    cases r with
    | none =>
      cases h
      exact .looked hi hl
    | some p =>
      obtain ⟨g₂, he, h⟩ := bind_ok.mp h
      cases h
      exact .ok ((hi.looked hl).retimed (entrySetTtl_ok he).1)

theorem doQuery_serves {args : List Bytes}
    (h : doQuery lim g (ascii "zquery" :: args) out = .ok (g', code, out')) :
    Serves g code g' := by
  rcases doQuery_looked rfl h with rfl | ⟨key, r, -, hl⟩
  · exact .same hi
  · exact .looked hi (lookupEntry_spec w hl)

theorem doZadd_serves {args : List Bytes}
    (h : doZadd lim g (ascii "zadd" :: args) out = .ok (g', code, out')) : Serves g code g' := by
  unfold doZadd at h
  split at h
  · cases h
    exact .same hi
  · obtain ⟨s, -, h⟩ := bind_ok.mp h
    obtain ⟨score, -, h⟩ := bind_ok.mp h
    obtain ⟨name, -, h⟩ := bind_ok.mp h
    obtain ⟨key, -, h⟩ := bind_ok.mp h
    obtain ⟨⟨g₁, r⟩, hl, h⟩ := bind_ok.mp h
    obtain ⟨⟨g₂, p⟩, hz, h⟩ := bind_ok.mp h
    obtain ⟨e, he, h⟩ := bind_ok.mp h
    obtain ⟨z, hzs, h⟩ := bind_ok.mp h
    obtain ⟨⟨z', added⟩, hadd, h⟩ := bind_ok.mp h
    cases h
    have hl := lookupEntry_spec w hl
    have h₁ := hi.looked hl
    have h₂ : SetsIndexed g₂.entries := by
      cases r with
      | none =>
        -- the new entry has an empty sorted set
        obtain ⟨-, m, hc⟩ := insertEntry_spec hl.wf hz
        apply h₁.created hc
        intro z hz
        cases hz
        exact .empty
      | some q =>
        cases hz
        exact h₁
    have hzi : z.Indexed := h₂ p e z (Store.read_ok.mp he) (zsetOf_ok.mp hzs)
    exact .ok (h₂.put (zsetAdd_indexed hzi hadd))

theorem doZscore_serves {args : List Bytes}
    (h : doZscore g (ascii "zscore" :: args) out = .ok (g', code, out')) : Serves g code g' := by
  unfold doZscore at h
  split at h
  · cases h
    exact .same hi
  · obtain ⟨key, -, h⟩ := bind_ok.mp h
    obtain ⟨⟨g₁, r⟩, hl, h⟩ := bind_ok.mp h
    have hl := lookupEntry_spec w hl
    cases r with
    | none =>
      cases h
      exact .looked hi hl
    | some p =>
      obtain ⟨e, he, h⟩ := bind_ok.mp h
      have he := Store.read_ok.mp he
      split at h
      · cases h
        exact .looked hi hl
      · obtain ⟨z, hz, h⟩ := bind_ok.mp h
        have hz := zsetOf_ok.mp hz
        obtain ⟨name, -, h⟩ := bind_ok.mp h
        obtain ⟨⟨z', r⟩, hlook, h⟩ := bind_ok.mp h
        have h₁ := hi.looked hl
        have hzi := h₁ p e z he hz
        have hlook := zsetLookup_spec hzi hlook
        have hafter : SetsIndexed (g₁.entries.write p { e with zset := some z' }) :=
          h₁.put (hlook.indexed hzi)
        cases r with
        | none =>
          cases h
          exact ⟨hafter, fun _ => sameData_member hl he hz hlook.rehashed⟩
        | some zn =>
          obtain ⟨n, -, h⟩ := bind_ok.mp h
          cases h
          exact .ok hafter

theorem doZrem_serves {args : List Bytes}
    (h : doZrem lim g (ascii "zrem" :: args) out = .ok (g', code, out')) : Serves g code g' := by
  unfold doZrem at h
  split at h
  · cases h
    exact .same hi
  · obtain ⟨key, -, h⟩ := bind_ok.mp h
    obtain ⟨⟨g₁, r⟩, hl, h⟩ := bind_ok.mp h
    have hl := lookupEntry_spec w hl
    cases r with
    | none =>
      cases h
      exact .looked hi hl
    | some p =>
      obtain ⟨e, he, h⟩ := bind_ok.mp h
      have he := Store.read_ok.mp he
      split at h
      · cases h
        exact .looked hi hl
      · obtain ⟨z, hz, h⟩ := bind_ok.mp h
        have hz := zsetOf_ok.mp hz
        obtain ⟨name, -, h⟩ := bind_ok.mp h
        obtain ⟨⟨z', r⟩, hpop, h⟩ := bind_ok.mp h
        have h₁ := hi.looked hl
        have hzi := h₁ p e z he hz
        -- zset_pop only returns when there was nothing to remove
        obtain ⟨rfl, hlook⟩ := zsetPop_ok hzi hpop
        cases h
        exact .ok (h₁.put ((zsetLookup_spec hzi hlook).indexed hzi))

/-- **Every request** keeps the indexes in order, and the data if it fails. -/
theorem doRequest_serves {cmd : List Bytes}
    (h : doRequest lim now g cmd out = .ok (g', code, out')) : Serves g code g' := by
  revert h
  refine doRequest_cases (motive := fun _ r => r = .ok (g', code, out') → Serves g code g')
    ?keys ?get ?set ?del ?zadd ?zscore ?zrem ?zquery ?expire ?ttl ?unknown cmd
  case keys =>
    intro h
    cases doKeys_same h
    exact .same hi
  case get =>
    intro key h
    obtain ⟨r, hl⟩ := doGet_looked h
    exact .looked hi (lookupEntry_spec w hl)
  case set => exact fun _ _ => doSet_serves w hi
  case del => exact fun _ => doDel_serves w hi
  case zadd => exact fun _ => doZadd_serves w hi
  case zscore => exact fun _ => doZscore_serves w hi
  case zrem => exact fun _ => doZrem_serves w hi
  case zquery => exact fun _ => doQuery_serves w hi
  case expire => exact fun _ _ => doExpire_serves w hi
  case ttl =>
    intro key h
    obtain ⟨r, hl⟩ := doTtl_looked h
    exact .looked hi (lookupEntry_spec w hl)
  case unknown =>
    intro cmd _ h
    cases h
    exact .same hi

omit w hi

/-! ## Histories -/

theorem expireTop_setsIndexed (hi : SetsIndexed g.entries) (h : expireTop g = .ok g') :
    SetsIndexed g'.entries := by
  obtain ⟨top, e, db, n, pos, E, a, tp, -, -, -, -, -, hr, rfl⟩ := expireTop_ok h
  exact (hi.retimed (heapRemove_retimed hr)).free top.ref

theorem serve_setsIndexed (g : GlobalData) (ev : Event) (g' : GlobalData)
    (hi : g.Wf ∧ SetsIndexed g.entries) (h : serve lim g ev = .ok g') :
    g'.Wf ∧ SetsIndexed g'.entries := by
  refine ⟨serve_wf g ev g' hi.1 h, ?_⟩
  cases ev with
  | request now cmd =>
    obtain ⟨code, out, h⟩ := serve_request.mp h
    exact (doRequest_serves hi.1 hi.2 h).indexed
  | timers now =>
    exact expireLoop_invariant (I := fun g => SetsIndexed g.entries)
      (fun _ _ hi _ => expireTop_setsIndexed hi) hi.2 (eachExpiry_true _ g) h

/-- **A failed request leaves the data alone**, in every state a history can reach. -/
theorem failed_request_keeps_data (lim : Limits) (evs : List Event) (g : GlobalData)
    (hr : run (serve lim) {} evs = .ok g) (now : UInt64) (cmd : List Bytes) (out : Bytes)
    (g' : GlobalData) (code : ResCode) (out' : Bytes)
    (h : doRequest lim now g cmd out = .ok (g', code, out'))
    (hc : code = .RES_ERR ∨ code = .RES_NX) : SameData g g' := by
  obtain ⟨w, hi⟩ : g.Wf ∧ SetsIndexed g.entries :=
    run_invariant_all (I := fun g => g.Wf ∧ SetsIndexed g.entries) serve_setsIndexed
      ⟨.empty, .empty⟩ hr
  apply (doRequest_serves w hi h).intact
  rcases hc with rfl | rfl <;> decide

/-- `zscore` of a missing member. -/
theorem failed_request_keeps_data_zscore : ∃ g g',
    run (serve ⟨64, 0⟩) {} [ask 0 ["zadd", "z", "1.5", "a"], ask 1 ["expire", "z", "5000"],
      ask 2 ["set", "k", "v"]] = .ok g ∧
    doRequest ⟨64, 0⟩ 3 g [ascii "zscore", ascii "z", ascii "b"] [] =
      .ok (g', .RES_NX, outNil []) ∧ SameData g g' := by
  obtain ⟨g, g', hr, hreq⟩ := answer_after
    (show ((run (serve ⟨64, 0⟩) {} [ask 0 ["zadd", "z", "1.5", "a"], ask 1 ["expire", "z", "5000"],
      ask 2 ["set", "k", "v"]] >>= fun g =>
        doRequest ⟨64, 0⟩ 3 g [ascii "zscore", ascii "z", ascii "b"] []).toOption.map Prod.snd) =
      some (.RES_NX, outNil []) by decide +kernel)
  exact ⟨g, g', hr, hreq,
    failed_request_keeps_data ⟨64, 0⟩ _ g hr 3 _ [] g' .RES_NX (outNil []) hreq (.inr rfl)⟩

end RedisServer
