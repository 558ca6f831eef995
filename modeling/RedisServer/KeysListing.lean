import RedisServer.Responses

/-!
# keys

`keys` writes the number of entries as `hm_size` has it, a sum of two counters, and then what a scan
of the two tables meets.

Results:
* `keys_lists_keyspace` — in every reachable state the scan meets every entry once, and the count is
  the number of entries, as a `uint32_t`;
* `keys_count_wraps` — which is 0 for `2 ^ 32` entries.
-/

set_option autoImplicit false

namespace RedisServer

open Runs GlobalData

variable {lim : Limits} {g : GlobalData}

theorem le32_mod (n : Nat) : le32 (n % 2 ^ 32) = le32 n := by
  simp only [le32, List.cons.injEq, ← UInt8.toNat_inj, UInt8.toNat_ofNat', and_true]
  omega

/-- **`keys` lists the whole keyspace**, in every state a history can reach: the count of the
entries modulo `2 ^ 32`, and behind it the key of each linked entry. -/
theorem keys_lists_keyspace (lim : Limits) (evs : List Event) (g : GlobalData)
    (hr : run (serve lim) {} evs = .ok g) (cmd : List Bytes) (out : Bytes) :
    ∃ ks : List Bytes, doKeys g cmd out =
        .ok (g, .RES_OK, ks.foldl outStr (out ++ SER_ARR :: le32 (g.db.order.length % 2 ^ 32))) ∧
      ks.map some = g.db.order.map (fun n => (g.entries n.ptr).map Entry.key) ∧
      (g.db.order.map HNode.ptr).Nodup ∧
      ∀ p e, g.entries p = some e → e.node ∈ g.db.order ∧ e.node.ptr = p := by
  obtain ⟨w, hs⟩ : g.Wf ∧ g.db.Scannable :=
    run_invariant_all (I := fun g => g.Wf ∧ g.db.Scannable) serve_scannable
      ⟨.empty, .empty⟩ hr
  refine ⟨g.storedKeys, ?_, w.storedKeys, w.shape.nodup, ?_⟩
  · rw [doKeys_eq w hs, foldl_outStr, le32_mod]
    rfl
  · intro p e he
    obtain ⟨hlinked, hptr, -⟩ := w.stored p e he
    exact ⟨hlinked, hptr⟩

theorem keys_lists_keyspace_deleted : ∃ (g : GlobalData) (ks : List Bytes), run (serve ⟨64, 0⟩) {}
    [ask 0 ["set", "k", "v"], ask 1 ["expire", "k", "5"], ask 2 ["zadd", "z", "1.5", "a"],
      ask 3 ["set", "j", "w"], ask 4 ["del", "j"], .timers 8000] = .ok g ∧
    doKeys g [ascii "keys"] [] = .ok (g, .RES_OK,
      ks.foldl outStr ([] ++ SER_ARR :: le32 (g.db.order.length % 2 ^ 32))) := by
  obtain ⟨g, hg⟩ := ok_of_isSome (x := run (serve ⟨64, 0⟩) {}
    [ask 0 ["set", "k", "v"], ask 1 ["expire", "k", "5"], ask 2 ["zadd", "z", "1.5", "a"],
      ask 3 ["set", "j", "w"], ask 4 ["del", "j"], .timers 8000]) (by decide +kernel)
  obtain ⟨ks, h, -⟩ := keys_lists_keyspace ⟨64, 0⟩ _ g hg [ascii "keys"] []
  exact ⟨g, ks, hg, h⟩

/-! ## The count -/

/-- The same `set` over and over. -/
def setTimes (n : Nat) : List Event := List.replicate n (ask 0 ["set", "k", "v"])

/-- Each `set` links another entry. -/
theorem setTimes_spec (lim : Limits) : ∀ n : Nat, ∃ g, run (serve lim) {} (setTimes n) = .ok g ∧
    g.Wf ∧ g.db.Exact ∧ g.db.order.length = n
  | 0 => ⟨{}, rfl, .empty, HMap.exact_empty, rfl⟩
  | n + 1 => by
    obtain ⟨g, hr, w, hx, hlen⟩ := setTimes_spec lim n
    obtain ⟨g', m, hins, hc, hx'⟩ := insertEntry_total w hx (ascii "k") (ascii "v") 0 none
    have hset : doRequest lim 0 g [ascii "set", ascii "k", ascii "v"] [] =
        .ok (g', .RES_OK, outInt [] 0) := by
      have hdispatch : doRequest lim 0 g [ascii "set", ascii "k", ascii "v"] [] =
          doSet g [ascii "set", ascii "k", ascii "v"] [] := rfl
      rw [hdispatch, doSet, bind_arg (ascii "k") rfl, bind_arg (ascii "v") rfl, hins]
      rfl
    have hstep : serve lim g (ask 0 ["set", "k", "v"]) = .ok g' :=
      serve_request.mpr ⟨_, _, hset⟩
    obtain ⟨k, hk⟩ := hc.helped
    have hperm := (hk.perm.trans hc.linked.perm).length_eq
    refine ⟨g', ?_, hc.wf, hx', ?_⟩
    · rw [setTimes, List.replicate_succ']
      exact run_append_ok.mpr ⟨g, hr, run_cons_ok.mpr ⟨g', hstep, rfl⟩⟩
    · rw [hperm, List.length_cons, hlen]

/-- With `2 ^ 32` entries the count is 0. -/
theorem keys_count_wraps : ∃ evs g out, run (serve ⟨64, 0⟩) {} evs = .ok g ∧
    doKeys g [ascii "keys"] [] = .ok (g, .RES_OK, out) ∧
    g.db.order.length = 2 ^ 32 ∧ readU32 out 1 = .ok 0 := by
  obtain ⟨g, hr, w, -, hlen⟩ := setTimes_spec ⟨64, 0⟩ (2 ^ 32)
  obtain ⟨-, hs⟩ : g.Wf ∧ g.db.Scannable :=
    run_invariant_all (I := fun g => g.Wf ∧ g.db.Scannable) serve_scannable
      ⟨.empty, .empty⟩ hr
  refine ⟨setTimes (2 ^ 32), g, _, hr, doKeys_eq w hs _ _, hlen, ?_⟩
  rw [hlen]
  have hread : ∀ rest, readU32 (outArr [] (2 ^ 32) ++ rest) 1 = .ok (2 ^ 32 % 2 ^ 32) :=
    fun rest => readU32_le32_mod (2 ^ 32) rest
  rw [hread, Nat.mod_self]

end RedisServer
