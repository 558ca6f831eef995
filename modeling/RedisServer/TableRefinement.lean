import RedisServer.Tables

/-!
# A flat map of stacks refines a table

As long as no key has two slots, `Stacks` is a `Table`: a slot is read as a text or, through its
hash map, as a map from names to scores.

* `SetInvariant` — what an invariant of sorted sets has to be kept by, with two instances:
  `keyed_invariant` asks nothing of the additions, `sound_invariant` that they are calm;
* `ask_table` — a command on the stacks does and answers what it does and answers on the table;
* `expires_table` — so does a pass of the TTL loop;
* `ask_finds` — while the trees are sound, `zquery` answers the window of the score map.
-/

set_option autoImplicit false

namespace RedisServer

open Runs Trees BinaryTree

/-! ## Invariants of sorted sets -/

/-- `P` holds of the empty set and is kept by the calls that the handlers make, by an addition if
`C` allows it. -/
structure SetInvariant (lim : Limits) (C : ZSet → Bytes → Dbl → Prop) (P : ZSet → Prop) : Prop where
  keyed : ∀ zset, P zset → zset.Keyed
  empty : P {}
  add : ∀ zset name score zset' b, P zset → C zset name score →
    zsetAdd lim zset name score = .ok (zset', b) → P zset'
  lookup : ∀ zset name zset' r, P zset → zsetLookup zset name = .ok (zset', r) → P zset'

theorem keyed_invariant (lim : Limits) : SetInvariant lim (fun _ _ _ => True) ZSet.Keyed where
  keyed _ h := h
  empty := .empty
  add _ _ _ _ _ h _ ha := (zsetAdd_scores h ha).1
  lookup _ _ _ _ h hl := (zsetLookup_scores h hl).2.1

/-- The addition of a number that needs no rotation below the root. -/
def ZSet.Calm (lim : Limits) (zset : ZSet) (name : Bytes) (score : Dbl) : Prop :=
  score.isNaN = false ∧ zset.calm (.add name score) = true ∧
    2 * zset.hmap.order.length + 1 < lim.steps

instance (lim : Limits) (zset : ZSet) (name : Bytes) (score : Dbl) :
    Decidable (zset.Calm lim name score) := inferInstanceAs (Decidable (_ ∧ _ ∧ _))

section Sound

variable {zset : ZSet} {t : PTree} {name : Bytes}

theorem ZSet.Sound.keyed (h : zset.Sound t) : zset.Keyed where
  toIndexed := h.toIndexed
  named n hn n' hn' name hname hname' := by
    obtain ⟨z, hz, -⟩ := h.node n hn
    obtain ⟨z', hz', -⟩ := h.node n' hn'
    rw [hasName_of hz] at hname
    rw [hasName_of hz'] at hname'
    exact List.inj_on_of_nodup_map h.shape.nodup hn hn' (h.members.named _ (h.mem.mpr ⟨n, hn, rfl⟩)
      _ (h.mem.mpr ⟨n', hn', rfl⟩) z z' hz hz' (hname.trans hname'.symm))
  rooted ht := by
    rw [h.tree, root_eq_none] at ht
    have hperm := h.perm
    rw [ht] at hperm
    exact List.map_eq_nil_iff.mp hperm.symm.eq_nil

/-- The set holds its own scores. -/
theorem ZSet.Sound.holds (h : zset.Sound t) : zset.Holds zset.scores := by
  intro name
  cases hf : zset.find name with
  | none =>
    rw [ZSet.scores_missing hf]
    exact .none
  | some p =>
    obtain ⟨hp, z, hz, hname⟩ := h.find_eq_some.mp hf
    have hs : zset.scores name = some z.score := by rw [ZSet.scores, hf, Option.bind_some, hz]; rfl
    rw [hs]
    have hnum := h.members.numeric p hp z hz
    exact .some ⟨z, hz, hname, (Dbl.eq_iff hnum hnum).mpr rfl⟩

theorem sound_invariant (lim : Limits) :
    SetInvariant lim (ZSet.Calm lim) fun zset => ∃ t, zset.Sound t where
  keyed _ h := h.elim fun _ h => h.keyed
  empty := ⟨nil, .empty⟩
  add zset name score zset' b h hc ha := by
    obtain ⟨t, h⟩ := h
    obtain ⟨hnum, hcalm, hsteps⟩ := hc
    obtain ⟨z, t', hz, h', -⟩ := zsetStep_sound (.add name score) h h.holds hnum hcalm hsteps
    rw [zsetStep, ha] at hz
    cases hz
    exact ⟨t', h'⟩
  lookup zset name zset' r h hl := by
    obtain ⟨t, h⟩ := h
    obtain ⟨hmap, hl', -, h'⟩ := h.zsetLookup name
    cases hl.symm.trans hl'
    exact ⟨t, h'⟩

theorem ZSet.Sound.length (h : zset.Sound t) : t.numNodes = zset.hmap.order.length := by
  have := h.perm.length_eq
  rwa [length_inorder, List.length_map] at this

theorem ZSet.Sound.sortedSet (h : zset.Sound t) (hsize : zset.hmap.order.length < 2 ^ 32) :
    zset.Sorted t :=
  ⟨h.tree, h.rep.counted (h.length ▸ hsize), h.sorted, h.stored, h.length ▸ hsize⟩

/-- The members in the order of the tree are those of the score map. -/
theorem ZSet.Sound.listing (h : zset.Sound t) (hsize : zset.hmap.order.length < 2 ^ 32) :
    zset.scores.Listing (zset.members t) := by
  refine ⟨(h.sortedSet hsize).inOrder, ?_⟩
  intro z
  rw [ZSet.members, List.mem_filterMap, h.keyed.scores_eq_some]
  constructor
  · rintro ⟨p, hp, hz⟩
    obtain ⟨n, hn, rfl⟩ := h.mem.mp hp
    obtain ⟨a, ha, -, hhash⟩ := h.node n hn
    cases hz.symm.trans ha
    exact ⟨hhash, n, hn, z, hz, rfl, rfl⟩
  · rintro ⟨hhash, n, hn, a, ha, hname, hscore⟩
    obtain ⟨b, hb, -, hhash'⟩ := h.node n hn
    cases ha.symm.trans hb
    have heq : a = z := by
      cases a
      cases z
      simp only at hname hscore hhash hhash'
      rw [hhash', hhash, hname, hscore]
    exact ⟨n.ptr, h.mem.mpr ⟨n, hn, rfl⟩, heq ▸ ha⟩

end Sound

/-! ## Slots as items -/

def Slot.item (slot : Slot) : Item where
  content := match slot.zset with
    | none => .text slot.text
    | some z => .scores z.scores
  deadline := slot.deadline

def Stacks.asTable (S : Stacks) : Table := fun key => (S.top key).map Slot.item

/-- A slot with a sorted set has no text, and the set satisfies `P`. -/
def Slot.Kept (P : ZSet → Prop) (slot : Slot) : Prop := ∀ z ∈ slot.zset, slot.text = [] ∧ P z

def Stacks.Kept (P : ZSet → Prop) (S : Stacks) : Prop := ∀ key, ∀ slot ∈ S key, slot.Kept P

variable {lim : Limits} {C : ZSet → Bytes → Dbl → Prop} {P : ZSet → Prop} {S S' : Stacks}
  {key name : Bytes} {now : UInt64} {ks : List Bytes} {code : ResCode} {out : Bytes} {slot : Slot}
  {z : ZSet}

theorem Stacks.asTable_put (S : Stacks) (key : Bytes) (slots : List Slot) :
    (S.put key slots).asTable = S.asTable.put key (slots.head?.map Slot.item) := by
  funext k
  unfold asTable top put Table.put
  by_cases hk : k = key
  · subst hk
    rw [Function.update_self, Function.update_self]
  · rw [Function.update_of_ne hk, Function.update_of_ne hk]

theorem Stacks.asTable_pop (hf : S.Flat) (key : Bytes) :
    (S.pop key).asTable = S.asTable.put key none := by
  have hnil : (S key).tail = [] := by
    have := hf key
    match hS : S key, this with
    | [], _ => rfl
    | [_], _ => rfl
    | _ :: _ :: _, this => simp at this
  rw [pop, asTable_put, hnil]
  rfl

/-- The item of the top slot is put back unchanged. -/
theorem Stacks.asTable_same {slot' : Slot} (ht : S.top key = some slot)
    (hs : slot'.item = slot.item) : (S.setTop key slot').asTable = S.asTable := by
  rw [setTop, asTable_put]
  refine Function.update_eq_self_iff.mpr ?_
  rw [List.head?_cons, Option.map_some, hs, asTable, ht]
  rfl

theorem Stacks.asTable_top (ht : S.top key = some slot) : S.asTable key = some slot.item := by
  rw [asTable, ht]
  rfl

theorem Stacks.asTable_missed (ht : S.top key = none) : S.asTable key = none := by
  rw [asTable, ht]
  rfl

theorem Stacks.setZSet_top (ht : S.top key = some slot) (z : ZSet) :
    S.setZSet key z = S.setTop key { slot with zset := some z } := by
  rw [setZSet, ht]

theorem Stacks.setAt_eq_some (h : S.setAt key = some z) :
    ∃ slot, S.top key = some slot ∧ slot.zset = some z := Option.bind_eq_some_iff.mp h

theorem Stacks.scoresAt (S : Stacks) (key : Bytes) :
    S.asTable.scoresAt key = (S.setAt key).map ZSet.scores := by
  unfold Table.scoresAt asTable setAt
  cases S.top key with
  | none => rfl
  | some slot =>
    obtain ⟨text, zset, deadline⟩ := slot
    cases zset <;> rfl

theorem Stacks.Kept.top (h : S.Kept P) (ht : S.top key = some slot) : slot.Kept P :=
  h key slot (List.mem_of_mem_head? ht)

/-- `get` writes the text of the slot. -/
theorem Slot.Kept.shown (h : slot.Kept P) : slot.item.content.shown = slot.text := by
  cases hzset : slot.zset with
  | none => simp only [Slot.item, hzset, Content.shown]
  | some z => simp only [Slot.item, hzset, Content.shown, (h z hzset).1]

theorem Stacks.Kept.put {slots : List Slot} (h : S.Kept P) (hs : ∀ slot ∈ slots, slot.Kept P) :
    (S.put key slots).Kept P := by
  intro k slot hslot
  unfold Stacks.put at hslot
  by_cases hk : k = key
  · subst hk
    rw [Function.update_self] at hslot
    exact hs slot hslot
  · rw [Function.update_of_ne hk] at hslot
    exact h k slot hslot

theorem Stacks.Kept.push (h : S.Kept P) (hs : slot.Kept P) : (S.push key slot).Kept P :=
  h.put (List.forall_mem_cons.mpr ⟨hs, h key⟩)

theorem Stacks.Kept.setTop (h : S.Kept P) (hs : slot.Kept P) : (S.setTop key slot).Kept P :=
  h.put (List.forall_mem_cons.mpr ⟨hs, fun slot hm => h key slot (List.mem_of_mem_tail hm)⟩)

theorem Stacks.Kept.pop (h : S.Kept P) : (S.pop key).Kept P :=
  h.put fun slot hm => h key slot (List.mem_of_mem_tail hm)

/-- The sorted set of the top slot was only looked at. -/
theorem Stacks.Kept.looked {z' : ZSet} (h : S.Kept P) (hset : S.setAt key = some z) (hz : P z')
    (hs : z'.scores = z.scores) :
    (S.setZSet key z').asTable = S.asTable ∧ (S.setZSet key z').Kept P := by
  obtain ⟨slot, ht, hzset⟩ := setAt_eq_some hset
  rw [setZSet_top ht]
  refine ⟨asTable_same ht ?_, h.setTop ?_⟩
  · simp only [Slot.item, hzset, hs]
  · rintro _ ⟨⟩
    exact ⟨(h.top ht z hzset).1, hz⟩

/-! ## Commands -/

/-- The addition that a command asks for is one that `C` allows. -/
def Stacks.Adds (C : ZSet → Bytes → Dbl → Prop) (S : Stacks) : Command → Prop
  | .zadd key score name => ∀ s, stod score = .ok s → C ((S.setAt key).getD {}) name s
  | _ => True

/-- What a command does on the stacks it does on the table. -/
def Mapped (P : ZSet → Prop) (S S' : Stacks) (now : UInt64) (ks : List Bytes) (cmd : Command)
    (code : ResCode) (out : Bytes) : Prop :=
  S.asTable.ask now ks out cmd = some (S'.asTable, code, out) ∧ S'.Kept P

theorem ask_zadd {score : Bytes} (hP : SetInvariant lim C P) (hk : S.Kept P)
    (hc : S.Adds C (.zadd key score name))
    (h : S.ask lim now ks (.zadd key score name) = .ok (S', code, out)) :
    Mapped P S S' now ks (.zadd key score name) code out := by
  rw [Stacks.ask] at h
  obtain ⟨s, hs, h⟩ := bind_ok.mp h
  have hallowed := hc s hs
  unfold Mapped
  rw [Table.ask, hs]
  cases ht : S.top key with
  | none =>
    rw [Stacks.setAt, ht] at hallowed
    rw [ht] at h
    obtain ⟨⟨z, added⟩, hadd, h⟩ := bind_ok.mp h
    cases h
    obtain ⟨-, hscores, rfl⟩ := zsetAdd_scores (hP.keyed _ hP.empty) hadd
    rw [Stacks.asTable_missed ht]
    refine ⟨?_, hk.push ?_⟩
    · rw [Stacks.push, Stacks.asTable_put]
      simp only [List.head?_cons, Option.map_some, Slot.item, hscores]
      rfl
    · rintro _ ⟨⟩
      exact ⟨rfl, hP.add _ _ _ _ _ hP.empty hallowed hadd⟩
  | some slot =>
    rw [Stacks.setAt, ht] at hallowed
    rw [ht] at h
    obtain ⟨text, zset, deadline⟩ := slot
    cases zset with
    | none => cases h
    | some z =>
      obtain ⟨⟨z', added⟩, hadd, h⟩ := bind_ok.mp h
      cases h
      obtain ⟨htext, hz⟩ := hk.top ht z rfl
      obtain ⟨-, hscores, rfl⟩ := zsetAdd_scores (hP.keyed z hz) hadd
      rw [Stacks.asTable_top ht, Stacks.setZSet_top ht]
      refine ⟨?_, hk.setTop ?_⟩
      · rw [Stacks.setTop, Stacks.asTable_put]
        simp only [List.head?_cons, Option.map_some, Slot.item, hscores]
        rfl
      · rintro _ ⟨⟩
        exact ⟨htext, hP.add z name s z' _ hz hallowed hadd⟩

theorem ask_zscore (hP : SetInvariant lim C P) (hk : S.Kept P)
    (h : S.ask lim now ks (.zscore key name) = .ok (S', code, out)) :
    Mapped P S S' now ks (.zscore key name) code out := by
  rw [Stacks.ask] at h
  unfold Mapped
  rw [Table.ask, Stacks.scoresAt]
  cases hset : S.setAt key with
  | none =>
    rw [hset] at h
    cases h
    exact ⟨rfl, hk⟩
  | some z =>
    rw [hset] at h
    obtain ⟨⟨z', member⟩, hl, h⟩ := bind_ok.mp h
    obtain ⟨slot, ht, hzset⟩ := Stacks.setAt_eq_some hset
    have hz := (hk.top ht z hzset).2
    obtain ⟨rfl, h', heq, -, hscores⟩ := zsetLookup_scores (hP.keyed z hz) hl
    obtain ⟨htable, hkept⟩ := hk.looked hset (hP.lookup z name z' _ hz hl) hscores
    rw [Option.map_some, Option.bind_some]
    cases hf : z.find name with
    | none =>
      rw [hf] at h
      cases h
      rw [ZSet.scores_missing hf, htable]
      exact ⟨rfl, hkept⟩
    | some p =>
      rw [hf] at h
      obtain ⟨node, hnode, h⟩ := bind_ok.mp h
      cases h
      obtain ⟨-, -, a, -, ha, -, hs⟩ := (hP.keyed z hz).found hf
      rw [heq, Store.read_of ha] at hnode
      cases hnode
      rw [hs, htable]
      exact ⟨rfl, hkept⟩

theorem ask_zrem (hP : SetInvariant lim C P) (hk : S.Kept P)
    (h : S.ask lim now ks (.zrem key name) = .ok (S', code, out)) :
    Mapped P S S' now ks (.zrem key name) code out := by
  rw [Stacks.ask] at h
  unfold Mapped
  rw [Table.ask, Stacks.scoresAt]
  cases hset : S.setAt key with
  | none =>
    rw [hset] at h
    cases h
    exact ⟨rfl, hk⟩
  | some z =>
    rw [hset] at h
    obtain ⟨⟨z', member⟩, hp, h⟩ := bind_ok.mp h
    obtain ⟨slot, ht, hzset⟩ := Stacks.setAt_eq_some hset
    have hz := (hk.top ht z hzset).2
    obtain ⟨rfl, hno, -, hscores⟩ := zsetPop_scores (hP.keyed z hz) hp
    have hl := (zsetPop_ok (hP.keyed z hz).toIndexed hp).2
    obtain ⟨htable, hkept⟩ := hk.looked hset (hP.lookup z name z' _ hz hl) hscores
    cases h
    rw [Option.map_some, Option.bind_some, hno, htable]
    exact ⟨rfl, hkept⟩

theorem ask_zquery {score offset limit : Bytes} (hk : S.Kept P)
    (h : S.ask lim now ks (.zquery key score name offset limit) = .ok (S', code, out)) :
    Mapped P S S' now ks (.zquery key score name offset limit) code out := by
  rw [Stacks.ask] at h
  unfold Mapped
  rw [Table.ask, Stacks.scoresAt]
  cases hset : S.setAt key with
  | none =>
    rw [hset] at h
    cases h
    exact ⟨rfl, hk⟩
  | some z =>
    rw [hset] at h
    obtain ⟨s, hs, h⟩ := bind_ok.mp h
    obtain ⟨o, ho, h⟩ := bind_ok.mp h
    obtain ⟨l, hl, h⟩ := bind_ok.mp h
    obtain ⟨start, -, h⟩ := bind_ok.mp h
    obtain ⟨first, -, h⟩ := bind_ok.mp h
    obtain ⟨out', -, h⟩ := bind_ok.mp h
    cases h
    rw [hs, ho, hl]
    exact ⟨rfl, hk⟩

/-- **Every command** does and answers on the stacks what it does and answers on the table. -/
theorem ask_table (hP : SetInvariant lim C P) (hf : S.Flat) (hk : S.Kept P) (cmd : Command)
    (hc : S.Adds C cmd) (h : S.ask lim now ks cmd = .ok (S', code, out)) :
    Mapped P S S' now ks cmd code out := by
  cases cmd with
  | zadd key score name => exact ask_zadd hP hk hc h
  | zscore key name => exact ask_zscore hP hk h
  | zrem key name => exact ask_zrem hP hk h
  | zquery key score name offset limit => exact ask_zquery hk h
  | keys | usage _ | unknown =>
    cases h
    exact ⟨rfl, hk⟩
  | set key val =>
    cases h
    refine ⟨?_, hk.push nofun⟩
    rw [Table.ask, Stacks.push, Stacks.asTable_put]
    rfl
  | get key =>
    rw [Stacks.ask] at h
    unfold Mapped
    rw [Table.ask]
    cases ht : S.top key with
    | none =>
      rw [ht] at h
      cases h
      rw [Stacks.asTable_missed ht]
      exact ⟨rfl, hk⟩
    | some slot =>
      rw [ht] at h
      obtain ⟨_, hlen, h⟩ := bind_ok.mp h
      cases h
      rw [assert_ok, decide_eq_true_eq] at hlen
      rw [Stacks.asTable_top ht]
      dsimp only
      rw [(hk.top ht).shown, if_pos hlen]
      exact ⟨rfl, hk⟩
  | del key =>
    rw [Stacks.ask] at h
    unfold Mapped
    rw [Table.ask]
    cases ht : S.top key with
    | none =>
      rw [ht] at h
      cases h
      rw [Stacks.asTable_missed ht]
      exact ⟨rfl, hk⟩
    | some slot =>
      rw [ht] at h
      cases h
      rw [Stacks.asTable_top ht, Stacks.asTable_pop hf]
      exact ⟨rfl, hk.pop⟩
  | expire key ms =>
    rw [Stacks.ask] at h
    unfold Mapped
    rw [Table.ask]
    cases hint : str2int ms with
    | none =>
      rw [hint] at h
      cases h
      exact ⟨rfl, hk⟩
    | some ttlMs =>
      rw [hint] at h
      cases ht : S.top key with
      | none =>
        rw [ht] at h
        cases h
        dsimp only
        rw [Stacks.asTable_missed ht]
        exact ⟨rfl, hk⟩
      | some slot =>
        rw [ht] at h
        cases h
        dsimp only
        rw [Stacks.asTable_top ht, Stacks.setTop, Stacks.asTable_put]
        exact ⟨rfl, hk.setTop fun z hz => hk.top ht z hz⟩
  | ttl key =>
    rw [Stacks.ask] at h
    unfold Mapped
    rw [Table.ask]
    cases ht : S.top key with
    | none =>
      rw [ht] at h
      cases h
      rw [Stacks.asTable_missed ht]
      exact ⟨rfl, hk⟩
    | some slot =>
      rw [ht] at h
      rw [Stacks.asTable_top ht]
      obtain ⟨text, zset, deadline⟩ := slot
      cases deadline <;>
      · cases h
        exact ⟨rfl, hk⟩

/-! ## Listings and expiry -/

theorem Stacks.Flat.lists (hf : S.Flat) (h : S.Lists ks) : S.asTable.Lists ks := by
  refine ⟨List.nodup_iff_count_le_one.mpr fun key => h key ▸ hf key, ?_⟩
  intro key
  rw [← List.count_pos_iff, h key, asTable, top, Option.isSome_map]
  cases S key <;> simp

theorem Stacks.NoneBefore.table {d : UInt64} (h : S.NoneBefore d) : S.asTable.NoneBefore d := by
  intro key item hitem d' hd'
  obtain ⟨slot, ht, rfl⟩ := Option.map_eq_some_iff.mp hitem
  exact h key slot (List.mem_of_mem_head? ht) d' hd'

theorem Stacks.Flat.pop (hf : S.Flat) (key : Bytes) : (S.pop key).Flat := by
  intro k
  unfold Stacks.pop Stacks.put
  by_cases hk : k = key
  · subst hk
    rw [Function.update_self, List.length_tail]
    have := hf k
    omega
  · rw [Function.update_of_ne hk]
    exact hf k

/-- **A pass of the TTL loop** on the stacks is one on the table. -/
theorem expires_table {n : Nat} (h : Stacks.Expires now n S S') (hf : S.Flat) (hk : S.Kept P) :
    Table.Expires now n S.asTable S'.asTable ∧ S'.Kept P := by
  induction h with
  | full S => exact ⟨.full _, hk⟩
  | done hno => exact ⟨.done hno.table, hk⟩
  | @drop n S S' key slot d ht hd hdue hno _ ih =>
    obtain ⟨hexp, hk'⟩ := ih (hf.pop key) hk.pop
    rw [Stacks.asTable_pop hf] at hexp
    exact ⟨.drop (Stacks.asTable_top ht) hd hdue hno.table hexp, hk'⟩

/-! ## Range queries -/

/-- The queried set is not too large to count, and the steps last for it. -/
def Stacks.Countable (lim : Limits) (S : Stacks) : Command → Prop
  | .zquery key _ _ _ _ => ∀ z, S.setAt key = some z →
      2 * z.hmap.order.length < lim.steps ∧ z.hmap.order.length < 2 ^ 32
  | _ => True

/-- **Range queries** of sound sets answer the window of the score map. -/
theorem ask_finds {cmd : Command} (hk : S.Kept fun z => ∃ t, z.Sound t) (hc : S.Countable lim cmd)
    (h : S.ask lim now ks cmd = .ok (S', code, out)) : S.asTable.Finds cmd out := by
  cases cmd with
  | zquery key score name offset limit =>
    intro m s o l hm hs ho hl
    rw [Stacks.scoresAt] at hm
    obtain ⟨z, hset, rfl⟩ := Option.map_eq_some_iff.mp hm
    obtain ⟨slot, ht, hzset⟩ := Stacks.setAt_eq_some hset
    obtain ⟨-, t, hz⟩ := hk.top ht z hzset
    obtain ⟨hsteps, hsize⟩ := hc z hset
    have hsorted := hz.sortedSet hsize
    have hheight := t.height_le_numNodes
    have hlen := hz.length
    rw [Stacks.ask, hset] at h
    dsimp only at h
    rw [hs, ok_bind, ho, ok_bind, hl, ok_bind] at h
    obtain ⟨start, hstart, h⟩ := bind_ok.mp h
    have hname : name.length ≤ lim.slack := by
      unfold zsetQuery at hstart
      split at hstart
      · cases hstart
      · omega
    rw [zsetQuery_spec hsorted.searchable hname (by omega)] at hstart
    cases hstart
    obtain ⟨first, hjump, hloop⟩ := @window_spec lim z t hsorted (by omega) s name o
    rw [hjump, ok_bind, hloop, ok_bind] at h
    cases h
    exact ⟨_, hz.listing hsize, rfl⟩
  | keys | get _ | set _ _ | del _ | zadd _ _ _ | zscore _ _ | zrem _ _ | expire _ _ | ttl _
  | usage _ | unknown => trivial

end RedisServer
