import Mathlib.Data.List.Induction
import Mathlib.Logic.Function.Basic
import Mathlib.Tactic.Common

/-!
# A hash map on RAM

Every hash value has a list of at most three pairs in a RAM cell of its own, with the list's size. A
put is meant to append a pair and a get to find the last pair of a key.

The put sets the size from the loop variable after the loop, not from the slot it wrote. The size is
thus 4 from the first put on, later puts find no slot with the index of the size, and a get reads
the slots that no put has written.
-/

namespace Pequin.Cstd

/-! ## The library -/

def hashmapMaxCollisions : ℕ := 3

structure KeyValuePair where
  key : UInt32
  value : UInt32
deriving DecidableEq

structure CollisionList where
  pairs : Vector KeyValuePair hashmapMaxCollisions
  size : UInt32
deriving DecidableEq

structure Hashmap where
  memLoc : UInt32
  size : UInt32

/-- The RAM: one list in each cell. -/
abbrev HashmapRam := UInt32 → CollisionList

def hashmapPut_ (ram : HashmapRam) (h : Hashmap) (address : UInt32) (c : CollisionList) :
    HashmapRam :=
  Function.update ram (h.memLoc + address) c

def hashmapGet_ (ram : HashmapRam) (h : Hashmap) (address : UInt32) : CollisionList :=
  ram (h.memLoc + address)

/-- The first `n` iterations of the loop of `hashmap_init`. -/
def initLoop (ram : HashmapRam) (h : Hashmap) (data : CollisionList) (n : ℕ) : HashmapRam :=
  (List.range n).foldl (fun ram i => hashmapPut_ ram h (UInt32.ofNat i) data) ram

/-- The pairs of the local variable `data` are not initialised: `junk` is what they hold. -/
def hashmapInit (ram : HashmapRam) (memLoc size : UInt32)
    (junk : Vector KeyValuePair hashmapMaxCollisions) : Hashmap × HashmapRam :=
  let h : Hashmap := ⟨memLoc, size⟩
  let data : CollisionList := ⟨junk, 0⟩
  (h, initLoop ram h data h.size.toNat)

/-- The loop of `hashmap_put` and the new size. -/
def CollisionList.put (list : CollisionList) (pair : KeyValuePair) : CollisionList :=
  let list := (List.finRange hashmapMaxCollisions).foldl
    (fun list (i : Fin hashmapMaxCollisions) => if UInt32.ofNat i = list.size
      then { list with pairs := list.pairs.set i pair } else list) list
  -- `i` is the bound of the loop here
  { list with size := UInt32.ofNat hashmapMaxCollisions + 1 }

def hashmapPut (ram : HashmapRam) (h : Hashmap) (key address value : UInt32) : HashmapRam :=
  hashmapPut_ ram h address ((hashmapGet_ ram h address).put ⟨key, value⟩)

def CollisionList.visited (list : CollisionList) : List KeyValuePair :=
  ((List.finRange hashmapMaxCollisions).takeWhile
    fun i : Fin hashmapMaxCollisions => UInt32.ofNat i < list.size).map fun i => list.pairs[i]

def hashmapGet (ram : HashmapRam) (h : Hashmap) (value key address : UInt32) : UInt32 :=
  (hashmapGet_ ram h address).visited.foldl
    (fun value pair => if pair.key = key then pair.value else value) value

structure Put where
  key : UInt32
  address : UInt32
  value : UInt32
deriving DecidableEq

def runHashmapPuts (ram : HashmapRam) (h : Hashmap) (puts : List Put) : HashmapRam :=
  puts.foldl (fun ram p => hashmapPut ram h p.key p.address p.value) ram

/-! ## What a map is for -/

def putsAt (puts : List Put) (address : UInt32) : List KeyValuePair :=
  (puts.filter (·.address = address)).map fun p => ⟨p.key, p.value⟩

def latest (pairs : List KeyValuePair) (key : UInt32) : Option UInt32 :=
  (pairs.reverse.find? (·.key = key)).map (·.value)

theorem foldl_eq_latest (pairs : List KeyValuePair) (key value : UInt32) :
    pairs.foldl (fun value pair => if pair.key = key then pair.value else value) value =
      (latest pairs key).getD value := by
  induction pairs using List.reverseRecOn with
  | nil => rfl
  | append_singleton pairs pair ih =>
    rw [List.foldl_append, ih]
    by_cases h : pair.key = key <;> simp [h, latest]

theorem getD_eq_iff {a b : Option UInt32} : (∀ value, a.getD value = b.getD value) ↔ a = b := by
  refine ⟨fun h => ?_, fun h value => by rw [h]⟩
  have hne (v : UInt32) : v + 1 ≠ v := by simp
  cases a with
  | none => cases b with
    | none => rfl
    | some v => exact absurd (h (v + 1)) (hne v)
  | some v => cases b with
    | none => exact absurd (h (v + 1)).symm (hne v)
    | some w => exact congrArg some (h 0)

/-! ## The list of an address -/

section
variable {ram : HashmapRam} {h : Hashmap}

theorem put_cell {a b : UInt32} {c : CollisionList} :
    hashmapPut_ ram h b c (h.memLoc + a) = if a = b then c else ram (h.memLoc + a) := by
  simp [hashmapPut_, Function.update_apply]

theorem puts_cell (puts : List Put) (a : UInt32) :
    runHashmapPuts ram h puts (h.memLoc + a) =
      (putsAt puts a).foldl CollisionList.put (ram (h.memLoc + a)) := by
  induction puts generalizing ram with
  | nil => rfl
  | cons p puts ih =>
    rw [runHashmapPuts, List.foldl_cons, ← runHashmapPuts, ih, hashmapPut, put_cell]
    by_cases hp : a = p.address
    · simp [putsAt, hp, hashmapGet_]
    · simp [putsAt, hp, Ne.symm hp]

theorem initLoop_cell {data : CollisionList} {a : UInt32} {n : ℕ} (hn : n ≤ h.size.toNat) :
    initLoop ram h data n (h.memLoc + a) = if a.toNat < n then data else ram (h.memLoc + a) := by
  induction n with
  | zero => rfl
  | succ n ih =>
    have hsize : h.size.toNat < UInt32.size := h.size.toNat_lt
    have heq : a = UInt32.ofNat n ↔ a.toNat = n := by
      rw [← UInt32.toNat_inj, UInt32.toNat_ofNat_of_lt' (by omega)]
    rw [initLoop, List.range_succ, List.foldl_append, List.foldl_cons, List.foldl_nil, ← initLoop,
      put_cell, ih (by omega)]
    simp only [heq]
    split_ifs <;> first | rfl | omega

end

theorem init_cell (ram : HashmapRam) (memLoc s : UInt32)
    (junk : Vector KeyValuePair hashmapMaxCollisions) (a : UInt32) :
    (hashmapInit ram memLoc s junk).2 (memLoc + a) =
      if a < s then ⟨junk, 0⟩ else ram (memLoc + a) := by
  have hloop := @initLoop_cell ram ⟨memLoc, s⟩ ⟨junk, 0⟩ a _ (Nat.le_refl _)
  simpa only [hashmapInit, UInt32.lt_iff_toNat_lt] using hloop

/-- The second put of an address finds the size 4 and changes nothing. -/
theorem foldl_put (junk : Vector KeyValuePair hashmapMaxCollisions) (pair : KeyValuePair)
    (rest : List KeyValuePair) :
    (pair :: rest).foldl CollisionList.put ⟨junk, 0⟩ = ⟨junk.set 0 pair, 4⟩ := by
  have hfirst : CollisionList.put ⟨junk, 0⟩ pair = ⟨junk.set 0 pair, 4⟩ := rfl
  have hlater (pairs : Vector KeyValuePair hashmapMaxCollisions) (q : KeyValuePair) :
      CollisionList.put ⟨pairs, 4⟩ q = ⟨pairs, 4⟩ := rfl
  rw [List.foldl_cons, hfirst]
  induction rest with
  | nil => rfl
  | cons q rest ih => rw [List.foldl_cons, hlater, ih]

theorem visited_set (junk : Vector KeyValuePair hashmapMaxCollisions) (pair : KeyValuePair) :
    (CollisionList.mk (junk.set 0 pair) 4).visited = [pair, junk[1], junk[2]] := by
  have hslots : ((List.finRange hashmapMaxCollisions).takeWhile
      fun i : Fin hashmapMaxCollisions => UInt32.ofNat i < 4) =
        [⟨0, by decide⟩, ⟨1, by decide⟩, ⟨2, by decide⟩] := rfl
  rw [CollisionList.visited, hslots]
  simp

/-! ## What a get returns -/

theorem hashmapGet_eq_latest (ram : HashmapRam) (h : Hashmap) (value key address : UInt32) :
    hashmapGet ram h value key address =
      (latest (ram (h.memLoc + address)).visited key).getD value :=
  foldl_eq_latest _ _ _

theorem putsAt_eq_nil {puts : List Put} {s address : UInt32} (hputs : ∀ p ∈ puts, p.address < s)
    (hs : s ≤ address) : putsAt puts address = [] := by
  have hnone : puts.filter (·.address = address) = [] := by
    rw [List.filter_eq_nil_iff]
    intro p hp heq
    have hlt := hputs p hp
    rw [of_decide_eq_true heq] at hlt
    exact absurd hs (UInt32.not_le.2 hlt)
  rw [putsAt, hnone, List.map_nil]

section
variable (ram : HashmapRam) (memLoc s : UInt32) (junk : Vector KeyValuePair hashmapMaxCollisions)
  (puts : List Put)

def ramAfter : HashmapRam :=
  runHashmapPuts (hashmapInit ram memLoc s junk).2 (hashmapInit ram memLoc s junk).1 puts

theorem ramAfter_cell (address : UInt32) : ramAfter ram memLoc s junk puts (memLoc + address) =
    (putsAt puts address).foldl CollisionList.put
      (if address < s then ⟨junk, 0⟩ else ram (memLoc + address)) := by
  rw [← init_cell ram memLoc s junk address]
  exact puts_cell puts address

/-- After every sequence of puts at addresses of the map, a get finds the latest put of its key at
its address exactly when the first put at this address followed by the two pairs that were never
written has the same latest pair. At an address outside of the map it sees the list that was there
before. -/
theorem hashmapGet_latest_iff (hputs : ∀ p ∈ puts, p.address < s) (key address : UInt32) :
    (∀ value, hashmapGet (ramAfter ram memLoc s junk puts) (hashmapInit ram memLoc s junk).1
      value key address = (latest (putsAt puts address) key).getD value) ↔
    (∀ pair rest, putsAt puts address = pair :: rest →
      latest [pair, junk[1], junk[2]] key = latest (pair :: rest) key) ∧
    (s ≤ address → latest (ram (memLoc + address)).visited key = none) := by
  have hget (value : UInt32) : hashmapGet (ramAfter ram memLoc s junk puts)
      (hashmapInit ram memLoc s junk).1 value key address =
      (latest (ramAfter ram memLoc s junk puts (memLoc + address)).visited key).getD value :=
    hashmapGet_eq_latest _ _ _ _ _
  simp only [hget]
  rw [getD_eq_iff, ramAfter_cell]
  by_cases hs : address < s
  · have hin : ¬ s ≤ address := UInt32.not_le.2 hs
    rw [if_pos hs]
    cases hat : putsAt puts address with
    | nil => exact iff_of_true rfl ⟨nofun, fun h => absurd h hin⟩
    | cons pair rest =>
      rw [foldl_put, visited_set]
      refine ⟨fun h => ⟨?_, fun h => absurd h hin⟩, fun h => h.1 pair rest rfl⟩
      rintro _ _ ⟨rfl, rfl⟩
      exact h
  · have hout : s ≤ address := UInt32.not_lt.1 hs
    rw [if_neg hs, putsAt_eq_nil hputs hout]
    exact ⟨fun h => ⟨nofun, fun _ => h⟩, fun h => h.2 hout⟩

end

/-- Two keys at two addresses of a map whose pairs were zero. -/
theorem hashmapGet_latest_two :
    let ram := ramAfter (fun _ => ⟨.replicate _ ⟨0, 0⟩, 0⟩) 0 2 (.replicate _ ⟨0, 0⟩)
      [⟨1, 0, 5⟩, ⟨2, 1, 7⟩]
    hashmapGet ram ⟨0, 2⟩ 9 1 0 = 5 ∧ hashmapGet ram ⟨0, 2⟩ 9 2 1 = 7 ∧
      hashmapGet ram ⟨0, 2⟩ 9 1 1 = 9 := by
  have hputs : ∀ p ∈ [(⟨1, 0, 5⟩ : Put), ⟨2, 1, 7⟩], p.address < 2 := by decide
  have hget := fun key address => (hashmapGet_latest_iff (fun _ => ⟨.replicate _ ⟨0, 0⟩, 0⟩) 0 2
    (.replicate _ ⟨0, 0⟩) _ hputs key address).2
  refine ⟨hget 1 0 ⟨?_, by decide⟩ 9, hget 2 1 ⟨?_, by decide⟩ 9, hget 1 1 ⟨?_, by decide⟩ 9⟩
  all_goals
    rintro pair rest ⟨rfl, rfl⟩
    rfl

/-- The second put of a key is lost, also when the pairs of the new map are zero. -/
theorem hashmapGet_second_put : ∃ puts : List Put,
    (∀ p ∈ puts, p.address < 1) ∧ (∀ address, (putsAt puts address).length ≤ hashmapMaxCollisions) ∧
    latest (putsAt puts 0) 1 = some 7 ∧
    hashmapGet (ramAfter (fun _ => ⟨.replicate _ ⟨0, 0⟩, 0⟩) 0 1 (.replicate _ ⟨0, 0⟩) puts)
      ⟨0, 1⟩ 0 1 0 = 5 := by
  refine ⟨[⟨1, 0, 5⟩, ⟨1, 0, 7⟩], by decide, fun address => ?_, rfl, rfl⟩
  rw [putsAt, List.length_map]
  exact Nat.le_trans (List.length_filter_le _ _) (by decide)

end Pequin.Cstd
