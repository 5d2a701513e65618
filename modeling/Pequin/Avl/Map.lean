import Pequin.Avl.Refine

/-!
# The tree as a map

A run of calls from the empty tree is compared with a map from keys to lists of values, on which a
call has its effect if it returned `TRUE`. The stored tree stays an AVL search tree of at most
`MAX_TREE_DEPTH` levels, and its nodes have the values of the map; a removed key keeps a node
without values.
-/

namespace Pequin.AvlTree

open Avl Avl.Tree

variable {K V H : Type}

/-! ## Values -/

def Payload.held (p : Payload V) : List V := p.values.toList.take p.numValues

theorem finRange_maxTreeNodeValues : List.finRange maxTreeNodeValues = [⟨0, Nat.one_pos⟩] := rfl

section
variable {p : Payload V}

theorem Payload.held_zero {values : Vector V maxTreeNodeValues} :
    Payload.held ⟨0, values⟩ = [] := rfl

theorem Payload.held_one {values : Vector V maxTreeNodeValues} :
    Payload.held ⟨1, values⟩ = [values[0]] := by
  obtain ⟨⟨l⟩, hl⟩ := values
  match l, hl with
  | [v], _ => rfl

theorem Payload.length_held_le (p : Payload V) : p.held.length ≤ maxTreeNodeValues := by
  rw [held, List.length_take, Vector.length_toList]
  exact min_le_right _ _

/-- What a change of the values of a node has as its result: whether it succeeds, and the values it
leaves if it does. -/
structure ChangesTo (result : Bool × Payload V) (succeeds : Prop) (vs : List V) : Prop where
  le : result.2.numValues ≤ maxTreeNodeValues
  success : result.1 = true ↔ succeeds
  held : result.1 = true → result.2.held = vs

def Changes (change : Payload V → Bool × Payload V) (succeeds : List V → Prop)
    (effect : List V → List V) : Prop :=
  ∀ p, p.numValues ≤ maxTreeNodeValues → ChangesTo (change p) (succeeds p.held) (effect p.held)

/-- The values of a node are zero or one. -/
theorem changes_of_cases {change : Payload V → Bool × Payload V} {succeeds : List V → Prop}
    {effect : List V → List V}
    (hzero : ∀ values, ChangesTo (change ⟨0, values⟩) (succeeds []) (effect []))
    (hone : ∀ values : Vector V maxTreeNodeValues,
      ChangesTo (change ⟨1, values⟩) (succeeds [values[0]]) (effect [values[0]])) :
    Changes change succeeds effect := by
  intro p hp
  obtain ⟨n, values⟩ := p
  match n, hp with
  | 0, _ => exact hzero values
  | 1, _ =>
    rw [Payload.held_one]
    exact hone values

variable [DecidableEq V] (values : Vector V maxTreeNodeValues)

omit [DecidableEq V] in
theorem held_set (v : V) : Payload.held ⟨1, values.set 0 v⟩ = [v] := by
  rw [Payload.held_one, Vector.getElem_set_self]

theorem copyValue_zero (v : V) : copyValue ⟨0, values⟩ v = (true, ⟨1, values.set 0 v⟩) := rfl

theorem copyValue_one (v : V) : copyValue ⟨1, values⟩ v = (false, ⟨1, values⟩) := by
  by_cases h : values[0] = v <;> simp [copyValue, finRange_maxTreeNodeValues, h]

theorem replaceValue_zero (old new : V) :
    replaceValue ⟨0, values⟩ old new = (true, ⟨1, values.set 0 new⟩) := rfl

theorem replaceValue_one (old new : V) :
    replaceValue ⟨1, values⟩ old new =
      if values[0] = old then (true, ⟨1, values.set 0 new⟩) else (false, ⟨1, values⟩) := by
  by_cases h : values[0] = old <;> simp [replaceValue, finRange_maxTreeNodeValues, h]

theorem eraseValue_zero (v : V) : eraseValue ⟨0, values⟩ v = (false, ⟨0, values⟩) := rfl

theorem eraseValue_one (v : V) :
    eraseValue ⟨1, values⟩ v = if values[0] = v then (true, ⟨0, values⟩)
      else (false, ⟨1, values⟩) := by
  by_cases h : values[0] = v <;> simp [eraseValue, finRange_maxTreeNodeValues, h]

theorem changes_copyValue (v : V) :
    Changes (copyValue · v) (·.length < maxTreeNodeValues) (· ++ [v]) := by
  refine changes_of_cases (fun values => ?_) fun values => ?_
  · rw [copyValue_zero]
    exact ⟨le_rfl, by simp [maxTreeNodeValues], fun _ => held_set values v⟩
  · rw [copyValue_one]
    exact ⟨le_rfl, by simp [maxTreeNodeValues], nofun⟩

def replaceIn (old new : V) (vs : List V) : List V :=
  if old ∈ vs then vs.map fun v => if v = old then new else v else vs ++ [new]

theorem changes_replaceValue (old new : V) :
    Changes (replaceValue · old new) (fun vs => old ∈ vs ∨ vs.length < maxTreeNodeValues)
      (replaceIn old new) := by
  refine changes_of_cases (fun values => ?_) fun values => ?_
  · rw [replaceValue_zero]
    exact ⟨le_rfl, by simp [maxTreeNodeValues], fun _ => held_set values new⟩
  · rw [replaceValue_one]
    split_ifs with h
    · refine ⟨le_rfl, by simp [h], fun _ => ?_⟩
      rw [held_set, replaceIn, if_pos (List.mem_singleton.2 h.symm), List.map_singleton, if_pos h]
    · exact ⟨le_rfl, by simpa [maxTreeNodeValues] using Ne.symm h, nofun⟩

theorem changes_eraseValue (v : V) : Changes (eraseValue · v) (v ∈ ·) (·.erase v) := by
  refine changes_of_cases (fun values => ?_) fun values => ?_
  · rw [eraseValue_zero]
    exact ⟨Nat.zero_le _, by simp, nofun⟩
  · rw [eraseValue_one]
    split_ifs with h
    · refine ⟨Nat.zero_le _, by simp [h], fun _ => ?_⟩
      rw [Payload.held_zero, h, List.erase_cons_head]
    · exact ⟨le_rfl, by simp [Ne.symm h], nofun⟩

end

/-- The results are those before and those of the node, up to the number that the result set has
room for. -/
theorem copyResults_eq {results : List (K × V)} {n : TreeNode K V H}
    (hresults : results.length ≤ maxTreeResults) (hn : n.numValues ≤ maxTreeNodeValues) :
    copyResults results n = (results ++ n.held.map (n.key, ·)).take maxTreeResults := by
  obtain ⟨⟨num, values⟩, left, right, key, height, heightLeft, heightRight⟩ := n
  match num, hn with
  | 0, _ =>
    rw [Payload.held_zero, List.map_nil, List.append_nil, List.take_of_length_le hresults]
    rfl
  | 1, _ =>
    rw [Payload.held_one, List.map_singleton]
    have hcopy : copyResults results
        { numValues := 1, values, left, right, key, height, heightLeft,
          heightRight : TreeNode K V H } =
        copyResult results key values[0] := rfl
    rw [hcopy, copyResult]
    split_ifs with hlen
    · rw [List.take_of_length_le]
      rw [List.length_append]
      exact hlen
    · rw [List.take_append_of_le_length (not_lt.1 hlen), List.take_of_length_le hresults]

/-! ## Stored AVL trees -/

/-- The values of a key, or `none` if it has no node. -/
def heldAt [LinearOrder K] (t : Tree K (Payload V)) (key : K) : Option (List V) :=
  (t.lookup key).map Payload.held

section
variable [LinearOrder K]

/-- What the calls keep of the tree of a state. -/
structure Valid (N : NodeHash K V H) (s : TreeState K V H) (t : Tree K (Payload V)) : Prop
    extends Represents N s t where
  ordered : t.Ordered
  balanced : t.Balanced
  depth : t.height ≤ maxTreeDepth
  numValues : ∀ k p, t.lookup k = some p → p.numValues ≤ maxTreeNodeValues

theorem valid_treeInit {N : NodeHash K V H} {st : NodeStore K V H} (h : Coherent N st) :
    Valid N (treeInit N st) nil :=
  ⟨⟨h, rfl, trivial⟩, List.Pairwise.nil, trivial, Nat.zero_le _, nofun⟩

variable {N : NodeHash K V H} {s : TreeState K V H} {t : Tree K (Payload V)}

theorem Valid.heldAt_update (h : Valid N s t) (key : K) (p : Payload V) :
    heldAt (t.update key fun _ => p) = Function.update (heldAt t) key (some p.held) := by
  funext k
  rw [heldAt, lookup_update h.ordered]
  by_cases hk : k = key
  · rw [if_pos hk, hk, Function.update_self, Option.map_some]
  · rw [if_neg hk, Function.update_of_ne hk, heldAt]

theorem heldAt_eq_none {key : K} (h : t.lookup key = none) : heldAt t key = none := by
  rw [heldAt, h, Option.map_none]

theorem heldAt_eq_some {key : K} {p : Payload V} (h : t.lookup key = some p) :
    heldAt t key = some p.held := by
  rw [heldAt, h, Option.map_some]

/-! ## Calls -/

/-- The result of a call: it returns `TRUE` exactly if it succeeds. The tree is as before if it
returned `FALSE`, and otherwise the call has had its effect on the values of its key. -/
def Outcome (N : NodeHash K V H) (s : TreeState K V H) (t : Tree K (Payload V)) (key : K)
    (succeeds : Prop) (effect : List V → List V)
      (result : Option (Bool × TreeState K V H)) : Prop :=
  ∃ ok s' t', result = some (ok, s') ∧ Valid N s' t' ∧ (ok = true ↔ succeeds) ∧
    (ok = false → s' = s ∧ t' = t) ∧
    (ok = true → heldAt t' = Function.update (heldAt t) key
      (some (effect ((heldAt t key).getD []))))

theorem Valid.outcome_false (h : Valid N s t) (key : K) {succeeds : Prop} (hfails : ¬ succeeds)
    (effect : List V → List V) : Outcome N s t key succeeds effect (some (false, s)) :=
  ⟨false, s, t, rfl, h, iff_of_false Bool.false_ne_true hfails, fun _ => ⟨rfl, rfl⟩, nofun⟩

variable [DecidableEq H]

section
variable (h : Valid N s t)
include h

/-- New values for a key with a node, or for one whose search path leaves room for a node. -/
theorem Valid.putPath {key : K} {p : Payload V}
    (hroom : (t.lookup key).isSome ∨ t.pathLength key < maxTreeDepth)
    (hp : p.numValues ≤ maxTreeNodeValues) :
    ∃ s', putPath N s (changedPath N key (fun _ => p) t) = some s' ∧
      Valid N s' (t.update key fun _ => p) := by
  obtain ⟨s', hput, hrep⟩ := h.toRepresents.putPath h.balanced key fun _ => p
  refine ⟨s', hput, hrep, h.ordered.update _ _, (grown_update h.balanced key _).balanced, ?_, ?_⟩
  · rcases hroom with hsome | hlt
    · obtain ⟨v, hv⟩ := Option.isSome_iff_exists.1 hsome
      rw [height_update_of_lookup h.balanced hv]
      exact h.depth
    · exact (height_update_le h.balanced key _).trans (max_le h.depth hlt)
  · intro k q hq
    rw [lookup_update h.ordered] at hq
    split_ifs at hq with hk
    · rw [← Option.some.inj hq]
      exact hp
    · exact h.numValues k q hq

theorem Valid.outcome_putPath {key : K} {p : Payload V} {succeeds : Prop}
    {effect : List V → List V} (hroom : (t.lookup key).isSome ∨ t.pathLength key < maxTreeDepth)
    (hp : p.numValues ≤ maxTreeNodeValues) (hsucceeds : succeeds)
    (heffect : p.held = effect ((heldAt t key).getD [])) :
    Outcome N s t key succeeds effect
      ((AvlTree.putPath N s (changedPath N key (fun _ => p) t)).bind fun s => some (true, s)) := by
  obtain ⟨s', hput, hvalid⟩ := h.putPath hroom hp
  refine ⟨true, s', _, ?_, hvalid, iff_of_true rfl hsucceeds, nofun, fun _ => ?_⟩
  · rw [hput]
    rfl
  · rw [h.heldAt_update, heffect]

theorem outcome_treePut (key : K) (value : V)
    {change : Payload V → Bool × Payload V} {succeeds : List V → Prop} {effect : List V → List V}
    (hchange : Changes change succeeds effect) (hnew : effect [] = [value]) :
    Outcome N s t key ((heldAt t key).elim (t.pathLength key < maxTreeDepth) succeeds) effect
      (treePut N s key value change) := by
  rw [treePut, h.findPath h.depth]
  cases hk : t.lookup key with
  | none =>
    have hnode : newNode N key value = nodeOf N nil key ⟨1, Vector.replicate _ value⟩ nil := rfl
    simp only [Option.bind_eq_bind, Option.bind_some, Option.isSome_none, Bool.false_eq_true,
      if_false, length_searchPath, heldAt_eq_none hk, Option.elim_none]
    split_ifs with hlen
    · rw [hnode, searchPath_append hk fun _ => ⟨1, Vector.replicate _ value⟩]
      refine h.outcome_putPath (.inr hlen) le_rfl hlen ?_
      rw [heldAt_eq_none hk, Option.getD_none, hnew]
      rfl
    · exact h.outcome_false key hlen effect
  | some p =>
    obtain ⟨n, hlast, hpayload⟩ := getLast_searchPath (N := N) hk
    have hresult := hchange p (h.numValues key p hk)
    simp only [Option.bind_eq_bind, Option.bind_some, Option.isSome_some, if_true, hlast, hpayload,
      heldAt_eq_some hk, Option.elim_some]
    split_ifs with hsuccess
    · rw [setLast_searchPath hk fun _ => (change p).2]
      refine h.outcome_putPath (.inl (Option.isSome_iff_exists.2 ⟨p, hk⟩)) hresult.le
        (hresult.success.1 hsuccess) ?_
      rw [heldAt_eq_some hk, Option.getD_some]
      exact hresult.held hsuccess
    · exact h.outcome_false key (hsuccess ∘ hresult.success.2) effect

theorem outcome_treeRemove (key : K) :
    Outcome N s t key (heldAt t key).isSome (fun _ => []) (treeRemove N s key) := by
  rw [treeRemove, h.findPath h.depth]
  cases hk : t.lookup key with
  | none => exact h.outcome_false key (by simp [heldAt_eq_none hk]) _
  | some p =>
    obtain ⟨n, hlast, hpayload⟩ := getLast_searchPath (N := N) hk
    simp only [Option.bind_eq_bind, Option.bind_some, Option.isSome_some, if_true, hlast]
    rw [setLast_searchPath hk fun _ => ⟨0, n.values⟩]
    exact h.outcome_putPath (.inl (Option.isSome_iff_exists.2 ⟨p, hk⟩)) (Nat.zero_le _)
      (by simp [heldAt_eq_some hk]) rfl

theorem outcome_treeRemoveValue [DecidableEq V] (key : K) (value : V) :
    Outcome N s t key (heldAt t key).isSome (·.erase value) (treeRemoveValue N s key value) := by
  rw [treeRemoveValue, h.findPath h.depth]
  cases hk : t.lookup key with
  | none => exact h.outcome_false key (by simp [heldAt_eq_none hk]) _
  | some p =>
    obtain ⟨n, hlast, hpayload⟩ := getLast_searchPath (N := N) hk
    have hheld := heldAt_eq_some hk
    have hresult := changes_eraseValue value p (h.numValues key p hk)
    simp only [Option.bind_eq_bind, Option.bind_some, Option.isSome_some, if_true, hlast, hpayload]
    split_ifs with hremoved
    · rw [setLast_searchPath hk fun _ => (eraseValue p value).2]
      refine h.outcome_putPath (.inl (Option.isSome_iff_exists.2 ⟨p, hk⟩)) hresult.le
        (by simp [hheld]) ?_
      rw [hheld, Option.getD_some]
      exact hresult.held hremoved
    · -- the values are as before, and the call returns that it has found the key
      refine ⟨true, s, t, rfl, h, by simp [hheld], nofun, fun _ => ?_⟩
      dsimp only
      rw [hheld, Option.getD_some, List.erase_of_not_mem (hremoved ∘ hresult.success.2), ← hheld,
        Function.update_eq_self]

end

theorem findEqLoop_hashOf {key : K} {st : NodeStore K V H} {t : Tree K (Payload V)} {n : ℕ}
    (ht : Holds N st t) (hn : t.height ≤ n)
    (hnum : ∀ p, t.lookup key = some p → p.numValues ≤ maxTreeNodeValues) :
    findEqLoop N st key n (hashOf N t) = some (((heldAt t key).getD []).map (key, ·)) := by
  induction t generalizing n with
  | nil =>
    cases n with
    | zero => rfl
    | succ n => exact if_pos rfl
  | node l k v r ihl ihr =>
    obtain ⟨hget, hl, hr⟩ := ht
    obtain ⟨n, rfl⟩ : ∃ n', n = n' + 1 := Nat.exists_eq_add_one.2 (by rw [height] at hn; omega)
    rw [height] at hn
    rw [lookup] at hnum
    have hkey : (nodeOf N l k v r).key = k := rfl
    rw [findEqLoop, if_neg (hashOf_ne_null l k v r), hget, heldAt, lookup]
    simp only [Option.bind_eq_bind, Option.bind_some, hkey]
    split_ifs at hnum ⊢ with heq hlt
    · rw [copyResults_eq (Nat.zero_le _) (hnum v rfl), List.nil_append, hkey, heq,
        List.take_of_length_le]
      · rfl
      · rw [List.length_map]
        exact (Payload.length_held_le v).trans (by decide)
    · exact ihl hl (by omega) hnum
    · exact ihr hr (by omega) hnum

/-! ## Runs -/

inductive TreeOp (K V : Type)
  | insert (key : K) (value : V)
  | update (key : K) (oldValue newValue : V)
  | remove (key : K)
  | removeValue (key : K) (value : V)

def TreeOp.key : TreeOp K V → K
  | insert key _ | update key _ _ | remove key | removeValue key _ => key

variable [DecidableEq V]

/-- When a call returns `TRUE`, given the values of its key (`none` for a key without a node) and
whether its search path has room for a node. -/
def TreeOp.Succeeds (room : Prop) : TreeOp K V → Option (List V) → Prop
  | insert _ _, held => held.elim room (·.length < maxTreeNodeValues)
  | update _ oldValue _, held =>
    held.elim room fun vs => oldValue ∈ vs ∨ vs.length < maxTreeNodeValues
  | remove _, held | removeValue _ _, held => held.isSome

/-- The effect of a call that returns `TRUE` on the values of its key. -/
def TreeOp.effect : TreeOp K V → List V → List V
  | insert _ value, vs => vs ++ [value]
  | update _ oldValue newValue, vs => replaceIn oldValue newValue vs
  | remove _, _ => []
  | removeValue _ value, vs => vs.erase value

def TreeOp.exec (N : NodeHash K V H) (s : TreeState K V H) :
    TreeOp K V → Option (Bool × TreeState K V H)
  | insert key value => treeInsert N s key value
  | update key oldValue newValue => treeUpdate N s key oldValue newValue
  | remove key => treeRemove N s key
  | removeValue key value => treeRemoveValue N s key value

theorem outcome_exec (h : Valid N s t) (op : TreeOp K V) :
    Outcome N s t op.key (op.Succeeds (t.pathLength op.key < maxTreeDepth) (heldAt t op.key))
      op.effect (op.exec N s) := by
  cases op with
  | insert key value => exact outcome_treePut h key value (changes_copyValue value) rfl
  | update key oldValue newValue =>
    exact outcome_treePut h key newValue (changes_replaceValue oldValue newValue) rfl
  | remove key => exact outcome_treeRemove h key
  | removeValue key value => exact outcome_treeRemoveValue h key value

/-- The states after calls on an empty tree, with the map that has the effects of those that
returned `TRUE`. -/
inductive Reachable (N : NodeHash K V H) : TreeState K V H → (K → Option (List V)) → Prop
  | init {st : NodeStore K V H} : Coherent N st → Reachable N (treeInit N st) fun _ => none
  | step {s s' : TreeState K V H} {m : K → Option (List V)} {ok : Bool} (op : TreeOp K V) :
    Reachable N s m → op.exec N s = some (ok, s') →
    Reachable N s'
      (if ok then Function.update m op.key (some (op.effect ((m op.key).getD []))) else m)

theorem Reachable.valid {m : K → Option (List V)} (h : Reachable N s m) :
    ∃ t, Valid N s t ∧ heldAt t = m := by
  induction h with
  | init hst => exact ⟨nil, valid_treeInit hst, rfl⟩
  | @step s s' m ok op _ hexec ih =>
    obtain ⟨t, hvalid, rfl⟩ := ih
    obtain ⟨ok', s'', t', hresult, hvalid', _, hfalse, htrue⟩ := outcome_exec hvalid op
    obtain ⟨rfl, rfl⟩ := Prod.mk.inj (Option.some.inj (hexec.symm.trans hresult))
    refine ⟨t', hvalid', ?_⟩
    cases ok with
    | false => rw [(hfalse rfl).2, if_neg Bool.false_ne_true]
    | true => rw [htrue rfl, if_pos rfl]

/-- In every run of calls the stored tree is in strict search order, has the true heights in its
nodes, is balanced and has at most `MAX_TREE_DEPTH` levels. A call always has a result: `TRUE`
exactly if the values of its key let it succeed, where a key that has no node needs a search path of
less than `MAX_TREE_DEPTH` nodes, and with `FALSE` the same tree. The values that are found are
those of the map. -/
theorem reachable_avl_map {m : K → Option (List V)} (h : Reachable N s m) :
    (∃ t, Represents N s t ∧ t.Ordered ∧ t.Balanced ∧ t.height ≤ maxTreeDepth ∧
      ∀ op : TreeOp K V, ∃ ok s', op.exec N s = some (ok, s') ∧
        (ok = true ↔ op.Succeeds (t.pathLength op.key < maxTreeDepth) (m op.key)) ∧
        (ok = false → s' = s)) ∧
    ∀ key, treeFindEq N s key = some (((m key).getD []).map (key, ·)) ∧
      ((m key).getD []).length ≤ maxTreeNodeValues := by
  obtain ⟨t, hvalid, rfl⟩ := h.valid
  refine ⟨⟨t, hvalid.toRepresents, hvalid.ordered, hvalid.balanced, hvalid.depth, fun op => ?_⟩,
    fun key => ⟨?_, ?_⟩⟩
  · obtain ⟨ok, s', _, hresult, _, hok, hfalse, _⟩ := outcome_exec hvalid op
    exact ⟨ok, s', hresult, hok, fun hok => (hfalse hok).1⟩
  · rw [treeFindEq, hvalid.root]
    exact findEqLoop_hashOf hvalid.holds hvalid.depth (hvalid.numValues key)
  · rw [heldAt]
    cases t.lookup key with
    | none => exact Nat.zero_le _
    | some p => exact p.length_held_le

end

theorem reachable_avl_map_insert : ∃ s : TreeState ℕ ℕ FreeHash, ∃ m,
    Reachable freeHash s m ∧ m 3 = some [] ∧ treeFindEq freeHash s 3 = some [] ∧
      treeFindEq freeHash s 5 = some [(5, 8)] := by
  have hinit : Reachable freeHash (treeInit freeHash fun _ => none) fun _ => none := .init nofun
  have hreach := ((hinit.step (.insert 3 7) rfl).step (.insert 5 8) rfl).step (.remove 3) rfl
  have hfind := (reachable_avl_map hreach).2
  exact ⟨_, _, hreach, rfl, (hfind 3).1, (hfind 5).1⟩

end Pequin.AvlTree
