import Pequin.ExternalSort.Quicksort
import Pequin.Lib.KWayMerge

/-!
# Merging the sorted chunks

The merge reads each chunk through a buffer of 8192 entries and writes through another one. A chunk
that has nothing left has a null pointer. The pointer of a chunk that is empty from the start should
be null too, but the code compares it with `NULL` where it should assign: the pointer stays
uninitialised. To use it has no result in the model.
-/

namespace Pequin.ExternalSort

open KWayMerge

variable {α : Type}

/-! ## The merge -/

def bufsize : ℕ := 8192

/-- A chunk that is being read: the entry at the current pointer, the rest of the buffer and what is
still in the file. -/
inductive Chunk (α : Type)
  | null
  | uninit
  | reading (x : α) (rest file : List α)

/-- Fills the buffer; the last argument is the state of the pointer if nothing is read. -/
def readBuffer (file : List α) (empty : Chunk α) : Chunk α :=
  match file.take bufsize with
  | [] => empty
  | x :: rest => .reading x rest (file.drop bufsize)

def openChunk (file : List α) : Chunk α := readBuffer file .uninit

def Chunk.advance : Chunk α → Chunk α
  | .reading _ (y :: rest) file => .reading y rest file
  | .reading _ [] file => readBuffer file .null
  | c => c

section
variable (cmp : α → α → ℤ)

/-- The smaller one of the entry of chunk `i` and the smallest one so far. -/
def smaller (i : ℕ) (x : α) : Option (ℕ × α) → Option (ℕ × α)
  | none => some (i, x)
  | some (k, y) => if cmp x y < 0 then some (i, x) else some (k, y)

/-- The loop for the smallest entry, from chunk `i` on. -/
def selectFrom : ℕ → Option (ℕ × α) → List (Chunk α) → Option (Option (ℕ × α))
  | _, smallest, [] => some smallest
  | i, smallest, .null :: chunks => selectFrom (i + 1) smallest chunks
  | _, _, .uninit :: _ => none
  | i, smallest, .reading x _ _ :: chunks => selectFrom (i + 1) (smaller cmp i x smallest) chunks

/-- The main loop: `sorted` is in the file already, `buffer` is the output buffer. -/
def mergeLoop : ℕ → List (Chunk α) → List α → List α → Option (List α)
  | 0, _, _, _ => none
  | fuel + 1, chunks, sorted, buffer =>
    match selectFrom cmp 0 none chunks with
    | none => none
    | some none => some (sorted ++ buffer)
    | some (some (i, x)) =>
      let buffer := buffer ++ [x]
      let (sorted, buffer) :=
        if buffer.length ≥ bufsize then (sorted ++ buffer, []) else (sorted, buffer)
      mergeLoop fuel (chunks.modify i Chunk.advance) sorted buffer

def mergeSortedChunks (files : List (List α)) : Option (List α) :=
  mergeLoop cmp (files.flatten.length + 1) (files.map openChunk) [] []

end

/-! ## What is left of a chunk -/

def Chunk.remaining : Chunk α → List α
  | .reading x rest file => x :: (rest ++ file)
  | _ => []

theorem remaining_readBuffer (file : List α) {empty : Chunk α} (h : empty.remaining = []) :
    (readBuffer file empty).remaining = file := by
  have htake := List.take_append_drop bufsize file
  unfold readBuffer
  split
  · rename_i hnil
    have hfile : file = [] := (List.take_eq_nil_iff.1 hnil).resolve_left (by decide)
    rw [h, hfile]
  · rename_i x rest hcons
    rw [hcons] at htake
    exact htake

theorem readBuffer_ne_uninit {file : List α} {empty : Chunk α} (h : empty ≠ .uninit) :
    readBuffer file empty ≠ .uninit := by
  unfold readBuffer
  split
  · exact h
  · nofun

theorem remaining_advance (x : α) (rest file : List α) :
    (Chunk.reading x rest file).advance.remaining = rest ++ file := by
  cases rest with
  | nil => exact remaining_readBuffer file rfl
  | cons y rest => rfl

theorem advance_ne_uninit {c : Chunk α} (h : c ≠ .uninit) : c.advance ≠ .uninit := by
  unfold Chunk.advance
  split
  · nofun
  · exact readBuffer_ne_uninit nofun
  · exact h

/-- A chunk file that has entries gives a chunk with a pointer. -/
theorem openChunk_eq_uninit_iff {file : List α} : openChunk file = .uninit ↔ file = [] := by
  constructor
  · intro h
    have hfile : (openChunk file).remaining = file := remaining_readBuffer file rfl
    rw [h] at hfile
    exact hfile.symm
  · rintro rfl
    rfl

/-! ## The smallest entry -/

section
variable {cmp : α → α → ℤ}

variable {chunks : List (Chunk α)}

theorem selectFrom_uninit (h : .uninit ∈ chunks) (i : ℕ) (smallest : Option (ℕ × α)) :
    selectFrom cmp i smallest chunks = none := by
  induction chunks generalizing i smallest with
  | nil => exact nomatch h
  | cons c chunks ih =>
    cases c with
    | uninit => rfl
    | null => exact ih ((List.mem_cons.1 h).resolve_left nofun) _ _
    | reading x rest file => exact ih ((List.mem_cons.1 h).resolve_left nofun) _ _

theorem exists_smaller (hcmp : TotalPreorder cmp) (i : ℕ) (x : α) (before : Option (ℕ × α)) :
    ∃ k z, smaller cmp i x before = some (k, z) ∧ cmp z x ≤ 0 ∧
      (∀ k' y, before = some (k', y) → cmp z y ≤ 0) ∧ (some (k, z) = before ∨ (k, z) = (i, x)) := by
  cases before with
  | none => exact ⟨i, x, rfl, (hcmp.self x).le, nofun, .inr rfl⟩
  | some best =>
    obtain ⟨k, y⟩ := best
    by_cases hlt : cmp x y < 0
    · refine ⟨i, x, if_pos hlt, (hcmp.self x).le, ?_, .inr rfl⟩
      rintro _ _ ⟨rfl, rfl⟩
      exact hlt.le
    · refine ⟨k, y, if_neg hlt, hcmp.le_of_nonneg (not_lt.1 hlt), ?_, .inl rfl⟩
      rintro _ _ ⟨rfl, rfl⟩
      exact (hcmp.self _).le

/-- The selected entry is the head of its chunk, or the one from before. -/
structure Selected (cmp : α → α → ℤ) (i : ℕ) (before : Option (ℕ × α)) (chunks : List (Chunk α))
    (result : Option (ℕ × α)) : Prop where
  eq : result = before ∨
    ∃ j x rest file, chunks[j]? = some (.reading x rest file) ∧ result = some (i + j, x)
  before_le : ∀ k y, before = some (k, y) → ∃ k' z, result = some (k', z) ∧ cmp z y ≤ 0
  heads_le : ∀ x rest file, .reading x rest file ∈ chunks → ∃ k z, result =
    some (k, z) ∧ cmp z x ≤ 0

theorem exists_selectFrom (hcmp : TotalPreorder cmp) (h : .uninit ∉ chunks) (i : ℕ)
    (before : Option (ℕ × α)) :
    ∃ result, selectFrom cmp i before chunks = some result ∧
      Selected cmp i before chunks result := by
  induction chunks generalizing i before with
  | nil =>
    refine ⟨before, rfl, .inl rfl, ?_, nofun⟩
    rintro k y rfl
    exact ⟨k, y, rfl, (hcmp.self y).le⟩
  | cons c chunks ih =>
    have hrest : .uninit ∉ chunks := fun hmem => h (List.mem_cons_of_mem _ hmem)
    cases c with
    | uninit => exact absurd List.mem_cons_self h
    | null =>
      obtain ⟨result, heq, hsel⟩ := ih hrest (i + 1) before
      refine ⟨result, heq, ?_, hsel.before_le, fun x rest file hmem => ?_⟩
      · rcases hsel.eq with hb | ⟨j, x, rest, file, hj, hr⟩
        · exact .inl hb
        · exact .inr ⟨j + 1, x, rest, file, hj, by rw [hr]; congr 2; omega⟩
      · exact hsel.heads_le x rest file ((List.mem_cons.1 hmem).resolve_left nofun)
    | reading x rest file =>
      obtain ⟨k, z, hsmaller, hzx, hzy, hwhich⟩ := exists_smaller hcmp i x before
      obtain ⟨result, heq, hsel⟩ := ih hrest (i + 1) (some (k, z))
      obtain ⟨k', w, hr, hwz⟩ := hsel.before_le k z rfl
      refine ⟨result, ?_, ?_, ?_, ?_⟩
      · rw [selectFrom, hsmaller, heq]
      · rcases hsel.eq with hb | ⟨j, y, rest', file', hj, hr⟩
        · rcases hwhich with hold | hnew
          · exact .inl (hb.trans hold)
          · exact .inr ⟨0, x, rest, file, rfl, by rw [hb, hnew]; rfl⟩
        · exact .inr ⟨j + 1, y, rest', file', hj, by rw [hr]; congr 2; omega⟩
      · intro k₀ y hbefore
        exact ⟨k', w, hr, hcmp.trans _ _ _ hwz (hzy k₀ y hbefore)⟩
      · intro y rest' file' hmem
        rcases List.mem_cons.1 hmem with hhead | hmem
        · cases hhead
          exact ⟨k', w, hr, hcmp.trans _ _ _ hwz hzx⟩
        · exact hsel.heads_le y rest' file' hmem

/-! ## The main loop -/

theorem map_remaining_modify {i : ℕ} {x : α} {rest file : List α}
    (hi : chunks[i]? = some (.reading x rest file)) :
    (chunks.modify i Chunk.advance).map Chunk.remaining =
      (chunks.map Chunk.remaining).set i (rest ++ file) := by
  apply List.ext_getElem?
  intro j
  rw [List.getElem?_map, List.getElem?_modify, List.getElem?_set, List.length_map,
    List.getElem?_map]
  split_ifs with hij hlt
  · rw [← hij, hi]
    exact congrArg some (remaining_advance x rest file)
  · have hlt' := (List.getElem?_eq_some_iff.1 hi).1
    exact absurd hlt' hlt
  · cases chunks[j]? <;> rfl

theorem uninit_notMem_modify (h : .uninit ∉ chunks) (i : ℕ) :
    .uninit ∉ chunks.modify i Chunk.advance := by
  intro hmem
  obtain ⟨j, hj⟩ := List.mem_iff_getElem?.1 hmem
  rw [List.getElem?_modify] at hj
  obtain ⟨c, hc, heq⟩ := Option.map_eq_some_iff.1 hj
  have hne : c ≠ .uninit := fun hu => h (hu ▸ List.mem_of_getElem? hc)
  split_ifs at heq
  · exact advance_ne_uninit hne heq
  · exact hne heq

/-- Enough iterations write all entries in order. -/
theorem mergeLoop_eq (hcmp : TotalPreorder cmp) {input : List α} {fuel : ℕ}
    {sorted buffer : List α} (h : .uninit ∉ chunks)
    (hm : Merging (fun a b => cmp a b ≤ 0) input (sorted ++ buffer) (chunks.map Chunk.remaining))
    (hfuel : (chunks.map Chunk.remaining).flatten.length < fuel) :
    ∃ out, mergeLoop cmp fuel chunks sorted buffer = some out ∧ out.Perm input ∧
      out.Pairwise fun a b => cmp a b ≤ 0 := by
  induction fuel generalizing chunks sorted buffer with
  | zero => exact absurd hfuel (Nat.not_lt_zero _)
  | succ fuel ih =>
    obtain ⟨result, hselect, hsel⟩ := exists_selectFrom hcmp h 0 none
    cases result with
    | none =>
      have hnil : ∀ l ∈ chunks.map Chunk.remaining, l = [] := by
        intro l hl
        obtain ⟨c, hc, rfl⟩ := List.mem_map.1 hl
        cases c with
        | null | uninit => rfl
        | reading x rest file =>
          obtain ⟨k, z, hnone, -⟩ := hsel.heads_le x rest file hc
          exact nomatch hnone
      refine ⟨sorted ++ buffer, ?_, hm.done hnil⟩
      simp only [mergeLoop, hselect]
    | some best =>
      rcases hsel.eq with hnone | ⟨i, x, rest, file, hi, hbest⟩
      · exact nomatch hnone
      rw [Nat.zero_add] at hbest
      rw [hbest] at hselect
      have hmin (y : α) (l : List α) (hl : y :: l ∈ chunks.map Chunk.remaining) : cmp x y ≤ 0 := by
        obtain ⟨c, hc, hrem⟩ := List.mem_map.1 hl
        cases c with
        | null | uninit => exact nomatch hrem
        | reading y' rest' file' =>
          obtain ⟨k, z, hz, hle⟩ := hsel.heads_le y' rest' file' hc
          cases hbest.symm.trans hz
          cases hrem
          exact hle
      have hhead : (chunks.map Chunk.remaining)[i]? = some (x :: (rest ++ file)) := by
        rw [List.getElem?_map, hi]
        rfl
      have hstep := hm.step hcmp.trans hhead hmin
      rw [← map_remaining_modify hi, List.append_assoc] at hstep
      have hless : ((chunks.modify i Chunk.advance).map Chunk.remaining).flatten.length < fuel := by
        have hlen := (flatten_set_perm hhead).length_eq
        rw [← map_remaining_modify hi, List.length_cons] at hlen
        omega
      have hnext := uninit_notMem_modify h i
      rw [mergeLoop, hselect]
      dsimp only
      split_ifs
      · exact ih hnext (by rwa [List.append_nil]) hless
      · exact ih hnext hstep hless

theorem map_remaining_openChunk (files : List (List α)) :
    (files.map openChunk).map Chunk.remaining = files := by
  rw [List.map_map]
  exact (List.map_congr_left fun file _ => remaining_readBuffer file rfl).trans (List.map_id _)

/-- Sorted files that have entries are merged. -/
theorem mergeSortedChunks_eq (hcmp : TotalPreorder cmp) {files : List (List α)} (hne : [] ∉ files)
    (hsorted : ∀ l ∈ files, l.Pairwise fun a b => cmp a b ≤ 0) :
    ∃ out, mergeSortedChunks cmp files = some out ∧ out.Perm files.flatten ∧
      out.Pairwise fun a b => cmp a b ≤ 0 := by
  have huninit : .uninit ∉ files.map openChunk := by
    intro hmem
    obtain ⟨file, hfile, heq⟩ := List.mem_map.1 hmem
    exact hne (openChunk_eq_uninit_iff.1 heq ▸ hfile)
  refine mergeLoop_eq hcmp huninit ?_ ?_
  · rw [map_remaining_openChunk]
    exact .start hsorted
  · rw [map_remaining_openChunk]
    exact Nat.lt_succ_self _

/-- The pointer of an empty file is used uninitialised. -/
theorem mergeSortedChunks_eq_none {files : List (List α)} (h : [] ∈ files) :
    mergeSortedChunks cmp files = none := by
  have hmem : .uninit ∈ files.map openChunk := List.mem_map.2 ⟨[], h, rfl⟩
  rw [mergeSortedChunks, mergeLoop, selectFrom_uninit hmem]

/-- Sorted files are merged into one sorted file if and only if none of them is empty. -/
theorem mergeSortedChunks_sorts_iff (hcmp : TotalPreorder cmp) {files : List (List α)}
    (hsorted : ∀ l ∈ files, l.Pairwise fun a b => cmp a b ≤ 0) :
    (∃ out, mergeSortedChunks cmp files = some out ∧ out.Perm files.flatten ∧
      out.Pairwise fun a b => cmp a b ≤ 0) ↔ [] ∉ files := by
  constructor
  · rintro ⟨out, hout, -⟩ hempty
    rw [mergeSortedChunks_eq_none hempty] at hout
    exact nomatch hout
  · exact fun hne => mergeSortedChunks_eq hcmp hne hsorted

end

theorem mergeSortedChunks_sorts_two : ∃ out,
    mergeSortedChunks (fun a b : ℤ => a - b) [[1, 3], [2]] = some out ∧
      out.Perm [[1, 3], [2]].flatten ∧ out.Pairwise fun a b => a - b ≤ 0 :=
  (mergeSortedChunks_sorts_iff totalPreorder_sub (by decide)).2 (by decide)

/-- The second file is empty. -/
theorem mergeSortedChunks_empty_file :
    mergeSortedChunks (fun a b : ℤ => a - b) [[1], []] = none := rfl

end Pequin.ExternalSort
