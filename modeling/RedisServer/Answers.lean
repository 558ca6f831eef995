import RedisServer.TableRuns
import RedisServer.Expiry

/-!
# When the server answers

The refinements so far say what the server answers if it answers.  Here is when it does: while the
sizes of the tables are exact and each entry owns its heap slot (`GlobalData.Ready`), a request
returns if its command returns on the stacks, and a pass of the TTL loop returns.

* `request_returns` — every request, handler by handler;
* `ask_returns` — a command that the table answers returns on the stacks, if the additions are
  calm and the name of a range query fits behind `temp`;
* `history_served` — so a history of such requests is served to its end, and answered from the
  table.
-/

set_option autoImplicit false

namespace RedisServer

open Runs Traces Trees GlobalData

variable {lim : Limits} {g g' : GlobalData} {key name : Bytes} {now : UInt64} {ks : List Bytes}
  {Q : Table → Command → Bytes → Prop}

/-- What the handlers need in order to return. -/
structure GlobalData.Ready (g : GlobalData) : Prop extends g.Sound, g.Timed

/-- What a command returns of, the request returns of. -/
def Replied (lim : Limits) (now : UInt64) (g : GlobalData) (cmd : List Bytes) (r : Handled) : Prop :=
  (∀ k, OrderlyRequest k g cmd) → Returns (g.asStacks.ask lim now [] (.of cmd)) → Returns r

/-- A lookup returns, and its key's stack tells what it has found. -/
theorem lookupEntry_ready (hi : g.Ready) (ho : ∀ k, g.db.KeepsOrder g.entries k) (key : Bytes) :
    ∃ g₁ r, lookupEntry g key = .ok (g₁, r) ∧ Seen g key g₁ r ∧ g₁.db.Exact := by
  obtain ⟨g₁, r, hl, -, hx⟩ := lookupEntry_total hi.wf hi.exact key
  exact ⟨g₁, r, hl, lookupEntry_seen hi.wf ho hl, hx⟩

/-! ## Handlers -/

theorem replied_get (hi : g.Ready) :
    Replied lim now g [ascii "get", key] (doGet g [ascii "get", key] []) := by
  intro ho h
  obtain ⟨g₁, r, hl, hs, -⟩ :=
    lookupEntry_ready hi (fun k => (ho k).help (by simp [looksUp_two])) key
  have hof : Command.of [ascii "get", key] = .get key := rfl
  rw [hof, Stacks.ask] at h
  unfold doGet
  rw [bind_arg key rfl, hl, ok_bind]
  cases r with
  | none => exact returns_ok _
  | some p =>
    obtain ⟨n, rest, e, -, -, he, htop⟩ := hs.found
    rw [htop] at h
    obtain ⟨u, hu, -⟩ := returns_bind.mp h
    exact .step (Store.read_of he) (.step hu (returns_ok _))

theorem doSet_returns {val : Bytes} (hi : g.Ready) : Returns (doSet g [ascii "set", key, val] []) := by
  obtain ⟨g₁, m, hins, -⟩ := insertEntry_total hi.wf hi.exact key val 0 none
  unfold doSet
  rw [bind_arg key rfl, bind_arg val rfl]
  exact .step hins (returns_ok _)

theorem entryDel_returns {p : Ptr} {e : Entry} (he : g.entries p = some e) :
    Returns (entryDel g p) := by
  unfold entryDel
  refine .step (Store.read_of he) ?_
  split <;> exact returns_ok _

theorem replied_del (hi : g.Ready) :
    Replied lim now g [ascii "del", key] (doDel g [ascii "del", key] []) := by
  intro _ _
  obtain ⟨db, r, hd⟩ := hmDelete_total hi.wf.shape hi.exact (hi.wf.eq_ok key)
  unfold doDel
  rw [bind_arg key rfl, hd, ok_bind]
  cases r with
  | none => exact returns_ok _
  | some n =>
    obtain ⟨m, k, hhelp, -, hf, -⟩ := delete_spec hi.wf hd
    obtain ⟨e, -, he, -⟩ := resolve_of_help hi.wf hhelp hf
    obtain ⟨g₁, hdel⟩ := entryDel_returns (g := { g with db := db }) he
    exact .step hdel (returns_ok _)

theorem replied_expire {s : Bytes} (hi : g.Ready) :
    Replied lim now g [ascii "expire", key, s] (doExpire g now [ascii "expire", key, s] []) := by
  intro _ _
  unfold doExpire
  rw [bind_arg s rfl]
  cases str2int s with
  | none => exact returns_ok _
  | some ttlMs =>
    dsimp only
    obtain ⟨g₁, r, hl, hlooked, -⟩ := lookupEntry_total hi.wf hi.exact key
    rw [bind_arg key rfl, hl, ok_bind]
    cases r with
    | none => exact returns_ok _
    | some p =>
      obtain ⟨n, e, -, rfl, he, -⟩ := hlooked.some
      have ok₁ : g₁.TtlOk := by rw [hlooked.data]; exact hi.ttl
      obtain ⟨g₂, hset, -⟩ := @entrySetTtl_spec _ now ok₁ n.ptr e he ttlMs
      exact .step hset (returns_ok _)

theorem replied_ttl (hi : g.Ready) :
    Replied lim now g [ascii "ttl", key] (doTtl g now [ascii "ttl", key] []) := by
  intro _ _
  obtain ⟨g₁, r, hl, hlooked, -⟩ := lookupEntry_total hi.wf hi.exact key
  unfold doTtl
  rw [bind_arg key rfl, hl, ok_bind]
  cases r with
  | none => exact returns_ok _
  | some p =>
    obtain ⟨n, e, -, rfl, he, -⟩ := hlooked.some
    have ok₁ : g₁.TtlOk := by rw [hlooked.data]; exact hi.ttl
    refine .step (Store.read_of he) ?_
    cases hidx : e.heapIdx with
    | none => exact returns_ok _
    | some pos =>
      -- an index in an entry is that of its slot
      obtain ⟨x, hx, -⟩ := ok₁.backed.slot n.ptr e pos not_false he hidx
      exact .step (itemAt_of hx) (returns_ok _)

/-! ### Sorted sets -/

theorem replied_zadd (hi : g.Ready) (args : List Bytes) :
    Replied lim now g (ascii "zadd" :: args) (doZadd lim g (ascii "zadd" :: args) []) := by
  intro ho h
  unfold doZadd
  split
  · exact returns_ok _
  · rename_i hlen
    match args, Decidable.not_not.mp hlen with
    | [key, s, name], _ =>
      have hof : Command.of [ascii "zadd", key, s, name] = .zadd key s name := rfl
      rw [hof, Stacks.ask] at h
      obtain ⟨score, hscore, h⟩ := returns_bind.mp h
      obtain ⟨g₁, r, hl, hs, hx⟩ := lookupEntry_ready hi (fun k => (ho k).help
        (by rw [looksUp_four ⟨rfl, by rw [hscore]; rfl⟩]; rfl)) key
      rw [bind_arg s rfl, hscore, ok_bind, bind_arg name rfl, bind_arg key rfl, hl, ok_bind]
      cases r with
      | none =>
        rw [hs.missed] at h
        obtain ⟨⟨z, added⟩, hadd, -⟩ := returns_bind.mp h
        obtain ⟨g₂, m, hins, hc, -⟩ := insertEntry_total hs.looked.wf hx key [] 1 (some {})
        have he : g₂.entries g₁.next = some (newEntry g₁ key [] 1 (some {})) := by
          rw [hc.data]
          exact Store.write_self _ _ _
        exact .step hins (.step (Store.read_of he) (.step (zsetOf_ok.mpr rfl)
          (.step hadd (returns_ok _))))
      | some p =>
        obtain ⟨n, rest, e, -, rfl, he, htop⟩ := hs.found
        rw [htop] at h
        cases hz : e.zset with
        | none =>
          have hslot : (g₁.slotOf e).zset = none := hz
          dsimp only at h
          rw [hslot] at h
          obtain ⟨_, h⟩ := h
          cases h
        | some z =>
          have hslot : (g₁.slotOf e).zset = some z := hz
          dsimp only at h
          rw [hslot] at h
          obtain ⟨⟨z', added⟩, hadd, -⟩ := returns_bind.mp h
          exact .step rfl (.step (Store.read_of he) (.step (zsetOf_ok.mpr hz)
            (.step hadd (returns_ok _))))

/-- An entry that passes the check of the reading z-commands has a sorted set. -/
theorem zset_of_unguarded {e : Entry} (h : ¬(e.type ≠ 1 ∨ e.zset.isNone)) :
    ∃ z, e.zset = some z :=
  Option.ne_none_iff_exists'.mp fun hno => h (.inr (Option.isNone_iff_eq_none.mpr hno))

theorem replied_zscore (hi : g.Ready) (args : List Bytes) :
    Replied lim now g (ascii "zscore" :: args) (doZscore g (ascii "zscore" :: args) []) := by
  intro ho h
  unfold doZscore
  split
  · exact returns_ok _
  · rename_i hlen
    match args, Decidable.not_not.mp hlen with
    | [key, name], _ =>
      have hof : Command.of [ascii "zscore", key, name] = .zscore key name := rfl
      rw [hof, Stacks.ask] at h
      obtain ⟨g₁, r, hl, hs, -⟩ := lookupEntry_ready hi
        (fun k => (ho k).help (by rw [looksUp_three (.inl rfl)]; rfl)) key
      rw [bind_arg key rfl, hl, ok_bind]
      cases r with
      | none => exact returns_ok _
      | some p =>
        obtain ⟨n, rest, e, -, rfl, he, -⟩ := hs.found
        refine .step (Store.read_of he) ?_
        split
        · exact returns_ok _
        · rename_i hguard
          rw [hs.setAt he] at h
          obtain ⟨z, hz⟩ := zset_of_unguarded hguard
          rw [hz] at h
          obtain ⟨⟨z', member⟩, hlook, h⟩ := returns_bind.mp h
          rw [zsetOf_ok.mpr hz, ok_bind, bind_arg name rfl]
          refine .step hlook ?_
          cases member with
          | none => exact returns_ok _
          | some q =>
            obtain ⟨node, hnode, -⟩ := returns_bind.mp h
            exact .step hnode (returns_ok _)

theorem replied_zrem (hi : g.Ready) (args : List Bytes) :
    Replied lim now g (ascii "zrem" :: args) (doZrem lim g (ascii "zrem" :: args) []) := by
  intro ho h
  unfold doZrem
  split
  · exact returns_ok _
  · rename_i hlen
    match args, Decidable.not_not.mp hlen with
    | [key, name], _ =>
      have hof : Command.of [ascii "zrem", key, name] = .zrem key name := rfl
      rw [hof, Stacks.ask] at h
      obtain ⟨g₁, r, hl, hs, -⟩ := lookupEntry_ready hi
        (fun k => (ho k).help (by rw [looksUp_three (.inr (.inl rfl))]; rfl)) key
      rw [bind_arg key rfl, hl, ok_bind]
      cases r with
      | none => exact returns_ok _
      | some p =>
        obtain ⟨n, rest, e, -, rfl, he, -⟩ := hs.found
        refine .step (Store.read_of he) ?_
        split
        · exact returns_ok _
        · rename_i hguard
          rw [hs.setAt he] at h
          obtain ⟨z, hz⟩ := zset_of_unguarded hguard
          rw [hz] at h
          obtain ⟨⟨z', member⟩, hpop, -⟩ := returns_bind.mp h
          rw [zsetOf_ok.mpr hz, ok_bind, bind_arg name rfl]
          refine .step hpop ?_
          cases member <;> exact returns_ok _

theorem replied_zquery (hi : g.Ready) (args : List Bytes) :
    Replied lim now g (ascii "zquery" :: args) (doQuery lim g (ascii "zquery" :: args) []) := by
  intro ho h
  unfold doQuery
  split
  · exact returns_ok _
  · rename_i hlen
    match args, Decidable.not_not.mp hlen with
    | [key, s, name, off, limit], _ =>
      have hof : Command.of [ascii "zquery", key, s, name, off, limit] =
          .zquery key s name off limit := rfl
      rw [hof, Stacks.ask] at h
      obtain ⟨g₁, r, hl, hs, -⟩ := lookupEntry_ready hi
        (fun k => (ho k).help (by rw [looksUp_six rfl]; rfl)) key
      rw [bind_arg key rfl, hl, ok_bind]
      cases r with
      | none => exact returns_ok _
      | some p =>
        obtain ⟨n, rest, e, -, rfl, he, -⟩ := hs.found
        refine .step (Store.read_of he) ?_
        split
        · exact returns_ok _
        · rename_i hguard
          rw [hs.setAt he] at h
          obtain ⟨z, hz⟩ := zset_of_unguarded hguard
          rw [hz] at h
          obtain ⟨score, hscore, h⟩ := returns_bind.mp h
          obtain ⟨offset, hoffset, h⟩ := returns_bind.mp h
          obtain ⟨count, hcount, h⟩ := returns_bind.mp h
          obtain ⟨start, hstart, h⟩ := returns_bind.mp h
          obtain ⟨first, hfirst, h⟩ := returns_bind.mp h
          obtain ⟨out, hloop, -⟩ := returns_bind.mp h
          rw [bind_arg s rfl, hscore, ok_bind, bind_arg name rfl, bind_arg off rfl, hoffset,
            ok_bind, bind_arg limit rfl, hcount, ok_bind, zsetOf_ok.mpr hz, ok_bind]
          exact .step hstart (.step hfirst (.step hloop (returns_ok _)))

/-- **Every request** returns if its command does on the stacks. -/
theorem request_returns (hi : g.Ready) (cmd : List Bytes) :
    Replied lim now g cmd (doRequest lim now g cmd []) := by
  refine doRequest_cases (motive := fun cmd r => Replied lim now g cmd r)
    ?keys ?get ?set ?del ?zadd ?zscore ?zrem ?zquery ?expire ?ttl ?unknown cmd
  case keys =>
    intro _ _
    rw [doKeys_eq hi.wf hi.scannable]
    exact returns_ok _
  case get => exact fun _ => replied_get hi
  case set => exact fun _ _ _ _ => doSet_returns hi
  case del => exact fun _ => replied_del hi
  case zadd => exact replied_zadd hi
  case zscore => exact replied_zscore hi
  case zrem => exact replied_zrem hi
  case zquery => exact replied_zquery hi
  case expire => exact fun _ _ => replied_expire hi
  case ttl => exact fun _ => replied_ttl hi
  case unknown => exact fun cmd _ _ _ => returns_ok _

/-! ## Commands -/

/-- The name of a range query fits behind `temp`. -/
def Command.Fits (lim : Limits) : Command → Prop
  | .zquery _ _ name _ _ => name.length ≤ lim.slack
  | _ => True

section Commands

variable {S : Stacks} {cmd : Command} {found score : Bytes} {slot : Slot} {z : ZSet} {t : PTree}

/-- If the addition moves a member, taking it out of the tree rotates at the root only. -/
def ZSet.Lifts (lim : Limits) (zset : ZSet) (name : Bytes) (score : Dbl) : Prop :=
  (∀ p a, zset.find name = some p → zset.nodes p = some a →
    a.score.eq score = true ∨ CalmBelow (remove p zset.storedTree)) ∧
  2 * zset.hmap.order.length + 1 < lim.steps

theorem ZSet.Calm.lifts {s : Dbl} (h : z.Calm lim name s) : z.Lifts lim name s := by
  obtain ⟨-, hcalm, hsteps⟩ := h
  refine ⟨fun p a hf ha => ?_, hsteps⟩
  simp only [ZSet.calm, hf, ha, Bool.or_eq_true, Bool.and_eq_true, decide_eq_true_eq] at hcalm
  exact hcalm.imp_right And.left

/-- `zset_update` returns: the tree that `avl_del` leaves has its parent links right, and `tree_add`
may rotate as it likes. -/
theorem zsetUpdate_returns {s : Dbl} {p : Ptr} (h : z.Sound t) (hp : p ∈ inorder t)
    (hlift : ∀ a, z.nodes p = some a → a.score.eq s = true ∨ CalmBelow (remove p t))
    (hfuel : 2 * z.hmap.order.length + 1 < lim.steps) : Returns (zsetUpdate lim z p s) := by
  obtain ⟨a, ha⟩ := h.stored p hp
  unfold zsetUpdate
  refine .step (Store.read_of ha) ?_
  split
  · exact returns_ok _
  · rename_i hne
    obtain ⟨m', hdel, hvalid, hpt, -, hheight⟩ :=
      h.taken_out hp ((hlift a ha).resolve_left hne) hfuel { a with score := s }
    have hready := hvalid.ready hpt (Store.write_self _ _ _) (Store.write_self _ _ _)
    obtain ⟨m, root', hadd, -⟩ := treeAdd_spec hready (E := False) False.elim hheight
    exact .step hdel ⟨_, hadd⟩

theorem zsetAdd_returns {s : Dbl} (h : z.Sound t) (hl : z.Lifts lim name s) :
    Returns (zsetAdd lim z name s) := by
  obtain ⟨hlift, hsteps⟩ := hl
  obtain ⟨hmap, hlook, hperm, h₁⟩ := h.zsetLookup name
  have hheight := h.treeIndexes.height_le
  unfold zsetAdd
  refine .step hlook ?_
  cases hf : z.find name with
  | some p =>
    obtain ⟨hp, -⟩ := h.find_eq_some.mp hf
    obtain ⟨z', hz'⟩ := @zsetUpdate_returns lim _ _ s p h₁ hp
      (fun a ha => h.treeIndexes.storedTree ▸ hlift p a hf ha)
      (show 2 * hmap.order.length + 1 < lim.steps by rw [hperm.length_eq]; exact hsteps)
    exact .step hz' (returns_ok _)
  | none =>
    obtain ⟨hmap', hins, -, -⟩ := hmInsert_total (n := ⟨z.next, (znodeNew name s).hcode⟩)
      h₁.shape h₁.exact h₁.notMem_next
    have hready := (h.allocated hmap' (znodeNew name s)).ready h.next_notMem
      (Store.write_self _ _ _) (Store.write_self _ _ _)
    obtain ⟨m, root', hadd, -⟩ :=
      treeAdd_spec hready (E := False) False.elim (show t.height < lim.steps by omega)
    exact .step hins (.step hadd (returns_ok _))

theorem ask_zadd_returns (hk : S.Kept fun z => ∃ t, z.Sound t)
    (hc : S.Adds (ZSet.Lifts lim) (.zadd key score name))
    (h : (S.asTable.ask now ks found (.zadd key score name)).isSome) :
    Returns (S.ask lim now ks (.zadd key score name)) := by
  rw [Table.ask] at h
  obtain ⟨r, h⟩ := Option.isSome_iff_exists.mp h
  obtain ⟨s, hs, h⟩ := Option.bind_eq_some_iff.mp h
  have hs := ok_of_toOption hs
  have hlifts := hc s hs
  rw [Stacks.ask]
  refine .step hs ?_
  cases ht : S.top key with
  | none =>
    rw [Stacks.setAt, ht] at hlifts
    obtain ⟨⟨z, added⟩, hadd⟩ := zsetAdd_returns .empty hlifts
    exact .step hadd (returns_ok _)
  | some slot =>
    rw [Stacks.setAt, ht] at hlifts
    rw [Stacks.asTable_top ht] at h
    obtain ⟨text, zset, deadline⟩ := slot
    cases zset with
    | none => cases h
    | some z =>
      obtain ⟨-, t, hz⟩ := hk.top ht z rfl
      obtain ⟨⟨z', added⟩, hadd⟩ := zsetAdd_returns hz hlifts
      exact .step hadd (returns_ok _)

theorem ask_zscore_returns (hk : S.Kept fun z => ∃ t, z.Sound t) :
    Returns (S.ask lim now ks (.zscore key name)) := by
  rw [Stacks.ask]
  cases hset : S.setAt key with
  | none => exact returns_ok _
  | some z =>
    obtain ⟨slot, ht, hzset⟩ := Stacks.setAt_eq_some hset
    obtain ⟨-, t, hz⟩ := hk.top ht z hzset
    obtain ⟨hmap, hl, -⟩ := hz.zsetLookup name
    refine .step hl ?_
    cases hf : z.find name with
    | none => exact returns_ok _
    | some p =>
      obtain ⟨-, a, ha, -⟩ := hz.find_eq_some.mp hf
      exact .step (Store.read_of ha) (returns_ok _)

/-- The table does not answer the `zrem` of a member. -/
theorem ask_zrem_returns (hk : S.Kept fun z => ∃ t, z.Sound t)
    (h : (S.asTable.ask now ks found (.zrem key name)).isSome) :
    Returns (S.ask lim now ks (.zrem key name)) := by
  rw [Table.ask, Stacks.scoresAt] at h
  rw [Stacks.ask]
  cases hset : S.setAt key with
  | none => exact returns_ok _
  | some z =>
    obtain ⟨slot, ht, hzset⟩ := Stacks.setAt_eq_some hset
    obtain ⟨-, t, hz⟩ := hk.top ht z hzset
    rw [hset, Option.map_some, Option.bind_some] at h
    have hf : z.find name = none := by
      cases hf : z.find name with
      | none => rfl
      | some p =>
        obtain ⟨-, -, a, -, -, -, hs⟩ := hz.keyed.found hf
        rw [hs] at h
        cases h
    obtain ⟨z', hpop, -⟩ := hz.pop_missing lim hz.holds hf
    exact .step hpop (returns_ok _)

theorem ask_zquery_returns {offset limit : Bytes} (hk : S.Kept fun z => ∃ t, z.Sound t)
    (hc : S.Countable lim (.zquery key score name offset limit)) (hname : name.length ≤ lim.slack)
    (h : (S.asTable.ask now ks found (.zquery key score name offset limit)).isSome) :
    Returns (S.ask lim now ks (.zquery key score name offset limit)) := by
  rw [Table.ask, Stacks.scoresAt] at h
  rw [Stacks.ask]
  cases hset : S.setAt key with
  | none => exact returns_ok _
  | some z =>
    obtain ⟨slot, ht, hzset⟩ := Stacks.setAt_eq_some hset
    obtain ⟨-, t, hz⟩ := hk.top ht z hzset
    rw [hset] at h
    obtain ⟨r, h⟩ := Option.isSome_iff_exists.mp h
    obtain ⟨s, hs, h⟩ := Option.bind_eq_some_iff.mp h
    obtain ⟨o, ho, h⟩ := Option.bind_eq_some_iff.mp h
    obtain ⟨l, hl, -⟩ := Option.bind_eq_some_iff.mp h
    obtain ⟨hsteps, hsize⟩ := hc z hset
    have hsorted := hz.sortedSet hsize
    have hheight := t.height_le_numNodes
    have hlen := hz.length
    obtain ⟨first, hjump, hloop⟩ := @window_spec lim z t hsorted (by omega) s name o
    exact .step (ok_of_toOption hs) (.step (ok_of_toOption ho) (.step (ok_of_toOption hl)
      (.step (zsetQuery_spec hsorted.searchable hname (by omega)) (.step hjump
        (.step (hloop _ []) (returns_ok _))))))

theorem Stacks.Adds.mono {C C' : ZSet → Bytes → Dbl → Prop}
    (hC : ∀ z name s, C z name s → C' z name s) (h : S.Adds C cmd) : S.Adds C' cmd := by
  cases cmd with
  | zadd key score name => exact fun s hs => hC _ _ _ (h s hs)
  | _ => trivial

/-- **A command that the table answers** returns on the stacks. -/
theorem ask_returns (hk : S.Kept fun z => ∃ t, z.Sound t) (hadds : S.Adds (ZSet.Lifts lim) cmd)
    (hcount : S.Countable lim cmd) (hfits : cmd.Fits lim)
    (h : (S.asTable.ask now ks found cmd).isSome) : Returns (S.ask lim now ks cmd) := by
  cases cmd with
  | zadd key score name => exact ask_zadd_returns hk hadds h
  | zscore key name => exact ask_zscore_returns hk
  | zrem key name => exact ask_zrem_returns hk h
  | zquery key score name offset limit => exact ask_zquery_returns hk hcount hfits h
  | keys | set _ _ | usage _ | unknown => exact returns_ok _
  | get key =>
    rw [Table.ask] at h
    rw [Stacks.ask]
    cases ht : S.top key with
    | none => exact returns_ok _
    | some slot =>
      rw [Stacks.asTable_top ht] at h
      dsimp only at h
      rw [(hk.top ht).shown] at h
      have hlen : slot.text.length ≤ maxMsg := by
        by_contra hlen
        rw [if_neg hlen] at h
        cases h
      exact .step (a := ()) (assert_ok.mpr (decide_eq_true hlen)) (returns_ok _)
  | del key =>
    rw [Stacks.ask]
    cases S.top key <;> exact returns_ok _
  | expire key ms =>
    rw [Stacks.ask]
    cases str2int ms with
    | none => exact returns_ok _
    | some ttlMs =>
      dsimp only
      cases S.top key <;> exact returns_ok _
  | ttl key =>
    rw [Stacks.ask]
    cases S.top key with
    | none => exact returns_ok _
    | some slot =>
      obtain ⟨text, zset, deadline⟩ := slot
      cases deadline <;> exact returns_ok _

/-- Whether the table answers does not depend on the clock and on what is listed. -/
theorem Table.answers_any (T : Table) (cmd : Command) (now' : UInt64) (ks' : List Bytes)
    (found' : Bytes) (h : (T.ask now ks found cmd).isSome) :
    (T.ask now' ks' found' cmd).isSome := by
  cases cmd with
  | expire key ms =>
    rw [Table.ask] at h ⊢
    cases str2int ms with
    | none => rfl
    | some ttlMs =>
      dsimp only
      cases T key <;> rfl
  | ttl key =>
    rw [Table.ask] at h ⊢
    cases T key with
    | none => rfl
    | some item =>
      obtain ⟨content, deadline⟩ := item
      cases deadline <;> rfl
  | zquery key score name offset limit =>
    rw [Table.ask] at h ⊢
    cases hm : T.scoresAt key with
    | none => rfl
    | some m =>
      rw [hm] at h
      obtain ⟨r, h⟩ := Option.isSome_iff_exists.mp h
      obtain ⟨s, hs, h⟩ := Option.bind_eq_some_iff.mp h
      obtain ⟨o, ho, h⟩ := Option.bind_eq_some_iff.mp h
      obtain ⟨l, hl, -⟩ := Option.bind_eq_some_iff.mp h
      rw [hs, ho, hl]
      rfl
  | keys => rfl
  | get _ | set _ _ | del _ | zadd _ _ _ | zscore _ _ | zrem _ _ | usage _ | unknown => exact h

end Commands

/-! ## Histories -/

/-- What a request has to be for the server to keep its indexes together: it sets no stored key,
deletes no key with a TTL and no node of ht2, and adds calmly. -/
structure Careful (lim : Limits) (g : GlobalData) (cmd : List Bytes) : Prop where
  fresh : SetsNewKey g cmd
  clean : CleanDel g cmd
  calm : g.asStacks.Adds (ZSet.Calm lim) (.of cmd)

instance (lim : Limits) (g : GlobalData) (cmd : List Bytes) : Decidable (Careful lim g cmd) :=
  decidable_of_iff (SetsNewKey g cmd ∧ CleanDel g cmd ∧ g.asStacks.Adds (ZSet.Calm lim) (.of cmd))
    ⟨fun ⟨h₁, h₂, h₃⟩ => ⟨h₁, h₂, h₃⟩, fun h => ⟨h.fresh, h.clean, h.calm⟩⟩

/-- What a server keeps that is asked such requests only. -/
structure GlobalData.Serving (g : GlobalData) : Prop extends
  g.Tabular (fun zset => ∃ t, zset.Sound t), g.Timed

theorem GlobalData.Serving.empty : GlobalData.Serving {} where
  toTabular := .empty
  ttl := .empty
  exact := HMap.exact_empty

/-- **One event** of a careful history: if it returns, it does a step on the table. -/
theorem serve_serving {ev : Event} (hi : g.Serving) (hc : ev.Meets (Careful lim) ChargedExpiry g)
    (hQ : ∀ now cmd ks S' code out, ev = .request now cmd →
      g.asStacks.ask lim now ks (.of cmd) = .ok (S', code, out) → Q g.asTable (.of cmd) out)
    (h : serve lim g ev = .ok g') :
    g'.Serving ∧ ∃ a, Replies lim g (ev, a) g' ∧ Table.Step Q g.asTable (ev, a) g'.asTable := by
  have hset : ev.Meets SetsNewKey (fun _ => True) g :=
    hc.mono (fun _ _ hc => hc.fresh) fun _ _ => trivial
  have hclean : ev.Meets CleanDel CleanExpiry g :=
    cleanMeets hi.toTimed hi.unique (hc.mono (fun _ _ hc => ⟨hc.fresh, hc.clean⟩) fun _ h => h)
  have t' := serve_timed hi.toTimed hclean h
  obtain ⟨hi', hstep⟩ := serve_table (sound_invariant lim) hi.toTabular hset
    (by rintro now cmd rfl; exact hc.calm) hQ h
  exact ⟨⟨hi', t'.ttl, t'.exact⟩, hstep⟩

/-- What a request has to be for the server to be sure to answer it: it sets no stored key, deletes
no key with a TTL and no node of ht2, adds calmly, queries what can be counted, and is one that the
table answers. -/
structure Served (lim : Limits) (g : GlobalData) (cmd : List Bytes) : Prop where
  fresh : SetsNewKey g cmd
  clean : CleanDel g cmd
  calm : CalmRequest lim g cmd
  fits : (Command.of cmd).Fits lim
  answered : (g.asTable.ask 0 [] [] (.of cmd)).isSome

instance (lim : Limits) : (cmd : Command) → Decidable (cmd.Fits lim)
  | .zquery _ _ name _ _ => inferInstanceAs (Decidable (name.length ≤ lim.slack))
  | .keys | .get _ | .set _ _ | .del _ | .zadd _ _ _ | .zscore _ _ | .zrem _ _ | .expire _ _
  | .ttl _ | .usage _ | .unknown => .isTrue trivial

instance (lim : Limits) (g : GlobalData) (cmd : List Bytes) : Decidable (Served lim g cmd) :=
  decidable_of_iff (SetsNewKey g cmd ∧ CleanDel g cmd ∧ CalmRequest lim g cmd ∧
      (Command.of cmd).Fits lim ∧ (g.asTable.ask 0 [] [] (.of cmd)).isSome)
    ⟨fun ⟨h₁, h₂, h₃, h₄, h₅⟩ => ⟨h₁, h₂, h₃, h₄, h₅⟩,
      fun h => ⟨h.fresh, h.clean, h.calm, h.fits, h.answered⟩⟩

theorem Served.careful {cmd : List Bytes} (h : Served lim g cmd) : Careful lim g cmd :=
  ⟨h.fresh, h.clean, h.calm.1⟩

/-- **One event** of a served history. -/
theorem serve_served {ev : Event} (hi : g.Serving) (hc : ev.Meets (Served lim) ChargedExpiry g) :
    ∃ g', serve lim g ev = .ok g' ∧ g'.Serving ∧ ∃ a, Replies lim g (ev, a) g' ∧
      Table.Step Table.Finds g.asTable (ev, a) g'.asTable := by
  have hcareful : ev.Meets (Careful lim) ChargedExpiry g :=
    hc.mono (fun _ _ hc => hc.careful) fun _ h => h
  have hreturns : ∃ g', serve lim g ev = .ok g' := by
    cases ev with
    | request now cmd =>
      have horder : Orderly g (.request now cmd) := orderly_of_unique hi.wf hi.unique hc.fresh
      have hask : Returns (g.asStacks.ask lim now [] (.of cmd)) :=
        ask_returns hi.kept (hc.calm.1.mono fun _ _ _ h => h.lifts) hc.calm.2 hc.fits
          (Table.answers_any _ _ now [] [] hc.answered)
      obtain ⟨⟨g', code, out⟩, hreq⟩ :=
        request_returns ⟨hi.toSound, hi.ttl, hi.exact⟩ cmd horder hask
      exact ⟨g', serve_request.mpr ⟨code, out, hreq⟩⟩
    | timers now =>
      have hclean : (Event.timers now).Meets CleanDel CleanExpiry g :=
        cleanMeets hi.toTimed hi.unique
          (hcareful.mono (fun _ _ hc => ⟨hc.fresh, hc.clean⟩) fun _ h => h)
      obtain ⟨g', h, -⟩ := expireLoop_spec (maxWorks + 1) g hi.toTimed hclean
      exact ⟨g', h⟩
  obtain ⟨g', h⟩ := hreturns
  obtain ⟨hi', a, hreplies, hstep⟩ := serve_serving (Q := Table.Finds) hi hcareful
    (by rintro now cmd ks S' code out rfl hask; exact ask_finds hi.kept hc.calm.2 hask) h
  exact ⟨g', h, hi', a, hreplies, hstep⟩

/-- What is known of a served event after it. -/
theorem served_step {ev : Event} (hi : g.Serving) (hc : ev.Meets (Served lim) ChargedExpiry g)
    (h : serve lim g ev = .ok g') :
    g'.Serving ∧ ∃ a, Replies lim g (ev, a) g' ∧
      Table.Step Table.Finds g.asTable (ev, a) g'.asTable := by
  obtain ⟨g₁, h₁, hi₁, hrest⟩ := serve_served hi hc
  cases h.symm.trans h₁
  exact ⟨hi₁, hrest⟩

/-- **A history of such requests is served to its end**, without a fault of any kind, and answered
from the table. -/
theorem history_served (lim : Limits) (evs : List Event)
    (hcond : AllSteps (serve lim) (fun g ev => ev.Meets (Served lim) ChargedExpiry g) {} evs) :
    ∃ g log, run (serve lim) {} evs = .ok g ∧ log.map Prod.fst = evs ∧
      Trace (Replies lim) {} log g ∧ Trace (Table.Step Table.Finds) Table.empty log g.asTable := by
  have hstep : ∀ g ev, g.Serving → ev.Meets (Served lim) ChargedExpiry g →
      ∃ g', serve lim g ev = .ok g' ∧ g'.Serving := by
    intro g ev hi hc
    obtain ⟨g', h, hi', -⟩ := serve_served hi hc
    exact ⟨g', h, hi'⟩
  obtain ⟨g, hrun, -⟩ := run_total hstep .empty hcond
  obtain ⟨log, hlog, hreplies, htrace⟩ :=
    traced (I := GlobalData.Serving) asTable (fun _ _ _ hi hc h => served_step hi hc h)
      .empty hcond hrun
  exact ⟨g, log, hrun, hlog, hreplies, htrace⟩

/-- Texts, scores, deadlines, a deletion and an expiry. -/
def served : List Event :=
  [ask 0 ["set", "k", "v"], ask 1 ["zadd", "z", "1.5", "m"], ask 2 ["zadd", "z", "0.5", "n"],
    ask 3 ["zquery", "z", "1", "", "0", "5"], ask 4 ["zrem", "z", "o"], ask 5 ["expire", "z", "5"],
    ask 6 ["get", "k"], ask 7 ["del", "k"], .timers 8000, ask 8001 ["zscore", "z", "m"],
    ask 8002 ["set", "z", "w"], ask 8003 ["keys"]]

theorem history_served_all : ∃ g log, run (serve ⟨64, 0⟩) {} served = .ok g ∧
    log.map Prod.fst = served ∧ Trace (Table.Step Table.Finds) Table.empty log g.asTable := by
  obtain ⟨g, log, hrun, hlog, -, htrace⟩ := history_served ⟨64, 0⟩ served (by decide +kernel)
  exact ⟨g, log, hrun, hlog, htrace⟩

end RedisServer
