import Mathlib.Algebra.Order.BigOperators.Group.List
import Mathlib.Algebra.Order.Ring.Nat
import Mathlib.Data.List.GetD
import Pequin.ExternalSort.Merge

/-!
# The external sort

A file is cut into chunk files, every chunk file is sorted in memory, and the sorted chunk files are
merged into the file. Files are lists of entries. An exit with an error, and what has no result in
C, is `none`.

The number of chunk files that are made is not always the number of chunk files that are read: `k`
entries in chunks of `⌈k / n⌉` entries need not make `n` chunks.
-/

namespace Pequin.ExternalSort

open Rearrange

variable {α : Type}

/-! ## The files -/

structure Files (α : Type) where
  main : Option (List α)
  chunk : ℕ → Option (List α)

/-- The conversion of a `long` to an `int`. -/
def toInt (x : ℕ) : ℤ := ((x : ℤ) + 2 ^ 31) % 2 ^ 32 - 2 ^ 31

def loadArray (file : Option (List α)) (offset count : ℕ) : Option (List α) := do
  let entries ← file
  if offset + count ≤ entries.length then some ((entries.drop offset).take count) else none

def partitionOneChunk (fs : Files α) (offset chunkId : ℕ) (numberOfEntries : ℤ) :
    Option (Files α) := do
  -- the allocation of the buffer fails
  if numberOfEntries < 0 then none
  else
    let buffer ← loadArray fs.main offset numberOfEntries.toNat
    some { fs with chunk := Function.update fs.chunk chunkId (some buffer) }

/-- The loop over the chunks, from entry `i` and chunk `j` on. -/
def chunkLoop (numberOfEntries entriesPerChunk : ℕ) : ℕ → Files α → ℕ → ℕ → Option (Files α)
  | 0, _, _, _ => none
  | fuel + 1, fs, i, j =>
    if i < numberOfEntries then do
      let actual := if numberOfEntries - i < entriesPerChunk then numberOfEntries - i
        else entriesPerChunk
      let fs ← partitionOneChunk fs i j (toInt actual)
      chunkLoop numberOfEntries entriesPerChunk fuel fs (i + entriesPerChunk) (j + 1)
    else some fs

/-- `⌈k / n⌉` -/
def entriesPerChunk (k n : ℕ) : ℕ := (k + n - 1) / n

def partitionFileIntoChunks (fs : Files α) (numberOfChunks : ℕ) : Option (Files α) := do
  let file ← fs.main
  chunkLoop file.length (entriesPerChunk file.length numberOfChunks) (file.length + 1) fs 0 0

section
variable [Inhabited α] (cmp : α → α → ℤ)

def bufferOf (l : List α) (i : ℤ) : α := l.getD i.toNat default

def sortEntries (l : List α) : Option (List α) := do
  let buf ← quicksortKeyValuePairs cmp l.length (bufferOf l) (toInt l.length)
  some (entries buf l.length)

/-- A chunk file that does not exist ends the program. -/
def sortOneChunk (fs : Files α) (i : ℕ) : Option (Files α) := do
  let file ← fs.chunk i
  let sorted ← sortEntries cmp file
  some { fs with chunk := Function.update fs.chunk i (some sorted) }

def sortChunks (fs : Files α) (numberOfChunks : ℕ) : Option (Files α) :=
  (List.range numberOfChunks).foldlM (sortOneChunk cmp) fs

def mergeChunkFiles (fs : Files α) (numberOfChunks : ℕ) : Option (Files α) := do
  let files ← (List.range numberOfChunks).mapM fs.chunk
  let sorted ← mergeSortedChunks cmp files
  some { fs with main := some sorted }

/-- `external_sort` with `partition = true`. -/
def externalSort (fs : Files α) (numberOfChunks : ℕ) : Option (Files α) := do
  let fs ← partitionFileIntoChunks fs numberOfChunks
  let fs ← sortChunks cmp fs numberOfChunks
  mergeChunkFiles cmp fs numberOfChunks

end

/-! ## Chunks of a list -/

def chunkOf (l : List α) (m j : ℕ) : List α := (l.drop (j * m)).take m

/-- The part of a chunk that is copied to its file. -/
def storedChunk (l : List α) (m j : ℕ) : List α :=
  (l.drop (j * m)).take (toInt (chunkOf l m j).length).toNat

theorem toInt_eq_iff {x : ℕ} : toInt x = x ↔ x < 2 ^ 31 := by
  unfold toInt
  omega

theorem toInt_toNat_le (x : ℕ) : (toInt x).toNat ≤ x := by
  unfold toInt
  omega

theorem flatten_chunks (l : List α) (m c : ℕ) :
    ((List.range c).map (chunkOf l m)).flatten = l.take (c * m) := by
  induction c with
  | zero => simp
  | succ c ih =>
    rw [List.range_succ, List.map_append, List.flatten_append, ih, List.map_singleton,
      List.flatten_singleton, Nat.succ_mul, List.take_add]
    rfl

theorem length_chunkOf (l : List α) (m j : ℕ) :
    (chunkOf l m j).length = if l.length - j * m < m then l.length - j * m else m := by
  rw [chunkOf, List.length_take, List.length_drop]
  split <;> omega

theorem length_storedChunk_le (l : List α) (m j : ℕ) :
    (storedChunk l m j).length ≤ (chunkOf l m j).length := by
  rw [storedChunk, List.length_take]
  exact (Nat.min_le_left _ _).trans (toInt_toNat_le _)

theorem storedChunk_eq {l : List α} {m : ℕ} (hm : m < 2 ^ 31) (j : ℕ) :
    storedChunk l m j = chunkOf l m j := by
  have hlt : (chunkOf l m j).length < 2 ^ 31 := by
    rw [length_chunkOf]
    split <;> omega
  rw [storedChunk, toInt_eq_iff.2 hlt, Int.toNat_natCast, length_chunkOf, chunkOf,
    List.take_eq_take_iff, List.length_drop]
  split <;> omega

def chunkCount (k m : ℕ) : ℕ := (k + m - 1) / m

theorem lt_chunkCount {k m x : ℕ} (hm : 0 < m) : x < chunkCount k m ↔ x * m < k := by
  rw [chunkCount, Nat.lt_div_iff_mul_lt hm]
  omega

/-! ## The partition -/

section
variable {l : List α} {m : ℕ}

theorem partitionOneChunk_eq {fs : Files α} (hmain : fs.main = some l) {j : ℕ}
    (hj : j * m < l.length) : partitionOneChunk fs (j * m) j (toInt (chunkOf l m j).length) =
      if toInt (chunkOf l m j).length < 0 then none
      else some { fs with chunk := Function.update fs.chunk j (some (storedChunk l m j)) } := by
  have hle := toInt_toNat_le (chunkOf l m j).length
  have hlen : (chunkOf l m j).length ≤ l.length - j * m := by
    rw [length_chunkOf]
    split <;> omega
  have hin : j * m + (toInt (chunkOf l m j).length).toNat ≤ l.length := by omega
  have hload : loadArray fs.main (j * m) (toInt (chunkOf l m j).length).toNat =
      some (storedChunk l m j) := by
    rw [loadArray, hmain, Option.bind_eq_bind, Option.bind_some, if_pos hin, storedChunk]
  rw [partitionOneChunk]
  split_ifs
  · rfl
  · rw [hload]
    rfl

theorem chunkLoop_succ (l : List α) (m fuel : ℕ) (fs : Files α) (j : ℕ) :
    chunkLoop l.length m (fuel + 1) fs (j * m) j =
      if j * m < l.length then
        (partitionOneChunk fs (j * m) j (toInt (chunkOf l m j).length)).bind fun fs =>
          chunkLoop l.length m fuel fs ((j + 1) * m) (j + 1)
      else some fs := by
  rw [length_chunkOf, Nat.succ_mul]
  rfl

/-- Every chunk that begins in the list gets a file. -/
theorem chunkLoop_eq_some {fuel j : ℕ} {fs fs' : Files α} (hmain : fs.main = some l)
    (h : chunkLoop l.length m fuel fs (j * m) j = some fs') :
    fs'.main = some l ∧ ∀ x, fs'.chunk x =
      if j ≤ x ∧ x * m < l.length then some (storedChunk l m x) else fs.chunk x := by
  induction fuel generalizing fs j with
  | zero => exact nomatch h
  | succ fuel ih =>
    rw [chunkLoop_succ] at h
    by_cases hj : j * m < l.length
    · rw [if_pos hj, partitionOneChunk_eq hmain hj] at h
      split_ifs at h
      · exact nomatch h
      rw [Option.bind_some] at h
      obtain ⟨hmain', hchunk⟩ := ih (by exact hmain) h
      refine ⟨hmain', fun x => ?_⟩
      rw [hchunk]
      by_cases hx : x = j
      · subst hx
        rw [if_neg (by omega), if_pos ⟨le_rfl, hj⟩]
        exact Function.update_self ..
      · have hiff : j + 1 ≤ x ∧ x * m < l.length ↔ j ≤ x ∧ x * m < l.length := by omega
        simp only [hiff]
        split_ifs
        · rfl
        · exact Function.update_of_ne hx ..
    · rw [if_neg hj] at h
      obtain rfl := Option.some.inj h
      refine ⟨hmain, fun x => ?_⟩
      rw [if_neg]
      rintro ⟨hx, hlt⟩
      exact hj (lt_of_le_of_lt (Nat.mul_le_mul_right m hx) hlt)

theorem isSome_chunkLoop (hm : 0 < m) (hm' : m < 2 ^ 31) {fuel j : ℕ} {fs : Files α}
    (hmain : fs.main = some l) (hpos : 0 < fuel) (hfuel : l.length < fuel + j * m) :
    (chunkLoop l.length m fuel fs (j * m) j).isSome := by
  induction fuel generalizing fs j with
  | zero => exact absurd hpos (lt_irrefl 0)
  | succ fuel ih =>
    rw [chunkLoop_succ]
    split_ifs with hj
    · have hlen : (chunkOf l m j).length < 2 ^ 31 := by
        rw [length_chunkOf]
        split <;> omega
      have hnonneg : ¬ toInt (chunkOf l m j).length < 0 := by
        rw [toInt_eq_iff.2 hlen]
        omega
      rw [partitionOneChunk_eq hmain hj, if_neg hnonneg, Option.bind_some]
      exact ih hmain (by omega) (by rw [Nat.succ_mul]; omega)
    · rfl

end

def Files.start (l : List α) : Files α := ⟨some l, fun _ => none⟩

theorem entriesPerChunk_pos {k n : ℕ} (hn : 1 ≤ n) (hk : 0 < k) : 0 < entriesPerChunk k n :=
  Nat.div_pos (by omega) hn

/-- The chunks cover the list. -/
theorem le_mul_entriesPerChunk (k : ℕ) {n : ℕ} (hn : 1 ≤ n) : k ≤ n * entriesPerChunk k n := by
  have hmod := Nat.div_add_mod (k + n - 1) n
  have hlt := Nat.mod_lt (k + n - 1) hn
  rw [entriesPerChunk]
  omega

theorem entriesPerChunk_le {k n : ℕ} (hn : 1 ≤ n) (hk : 0 < k) : entriesPerChunk k n ≤ k := by
  rw [entriesPerChunk, Nat.div_le_iff_le_mul_add_pred hn]
  have hle : k ≤ n * k := Nat.le_mul_of_pos_left k hn
  omega

theorem length_storedChunk_lt (l : List α) (m j : ℕ) : (storedChunk l m j).length < 2 ^ 31 := by
  have hlt : (toInt (chunkOf l m j).length).toNat < 2 ^ 31 := by
    unfold toInt
    omega
  rw [storedChunk, List.length_take]
  exact lt_of_le_of_lt (Nat.min_le_left _ _) hlt

/-- If all entries are in the chunk files, no chunk has more entries than fit in an `int`. -/
theorem entriesPerChunk_lt {l : List α} {n : ℕ} (hn : 1 ≤ n) (hl : 0 < l.length)
    (hsum : ((List.range n).map fun j =>
      (storedChunk l (entriesPerChunk l.length n) j).length).sum = l.length) :
    entriesPerChunk l.length n < 2 ^ 31 := by
  by_contra hbig
  set m := entriesPerChunk l.length n with hm
  have hcover : l.length ≤ n * m := le_mul_entriesPerChunk l.length hn
  have hall : ((List.range n).map fun j => (chunkOf l m j).length).sum = l.length := by
    have hflat := congrArg List.length (flatten_chunks l m n)
    rw [List.length_flatten, List.map_map, List.length_take, Nat.min_eq_right hcover] at hflat
    exact hflat
  have hfirst : (storedChunk l m 0).length < (chunkOf l m 0).length := by
    have hle : m ≤ l.length := entriesPerChunk_le hn hl
    have hstored := length_storedChunk_lt l m 0
    have hlen : (chunkOf l m 0).length = m := by
      rw [length_chunkOf]
      split <;> omega
    omega
  have hless := List.sum_lt_sum (l := List.range n) (fun j => (storedChunk l m j).length)
    (fun j => (chunkOf l m j).length) (fun j _ => length_storedChunk_le l m j)
    ⟨0, List.mem_range.2 hn, hfirst⟩
  omega

theorem mapM_eq_some_map {β γ : Type} {f : β → Option γ} {g : β → γ} {xs : List β}
    (h : ∀ x ∈ xs, f x = some (g x)) : xs.mapM f = some (xs.map g) := by
  induction xs with
  | nil => rfl
  | cons x xs ih =>
    rw [List.mapM_cons, h x List.mem_cons_self, ih fun y hy => h y (List.mem_cons_of_mem _ hy)]
    rfl

theorem partitionFileIntoChunks_start (l : List α) (n : ℕ) :
    partitionFileIntoChunks (.start l) n = chunkLoop l.length (entriesPerChunk l.length n)
      (l.length + 1) (.start l) (0 * entriesPerChunk l.length n) 0 := by
  rw [Nat.zero_mul]
  rfl

theorem partition_chunk {l : List α} {n : ℕ} {fs : Files α}
    (h : partitionFileIntoChunks (.start l) n = some fs) (x : ℕ) : fs.chunk x =
      if x * entriesPerChunk l.length n < l.length
      then some (storedChunk l (entriesPerChunk l.length n) x) else none := by
  rw [partitionFileIntoChunks_start] at h
  have hchunk := (chunkLoop_eq_some rfl h).2 x
  simp only [Nat.zero_le, true_and] at hchunk
  exact hchunk

/-! ## Sorting the chunk files -/

section
variable [Inhabited α] {cmp : α → α → ℤ}

theorem entries_bufferOf (l : List α) : entries (bufferOf l) l.length = l := by
  apply List.ext_getElem (length_entries _ _)
  intro i hi hi'
  simp only [entries, List.getElem_map, List.getElem_range, bufferOf, Int.toNat_natCast]
  exact List.getD_eq_getElem _ _ hi'

theorem sortEntries_eq_some (hcmp : TotalPreorder cmp) {l sorted : List α} (hl : l.length < 2 ^ 31)
    (h : sortEntries cmp l = some sorted) :
    sorted.Perm l ∧ sorted.Pairwise fun a b => cmp a b ≤ 0 := by
  rw [sortEntries, Option.bind_eq_bind, Option.bind_eq_some_iff] at h
  obtain ⟨buf, hbuf, heq⟩ := h
  rw [toInt_eq_iff.2 hl] at hbuf
  obtain rfl := Option.some.inj heq
  obtain ⟨hperm, hsorted⟩ := quicksortKeyValuePairs_eq_some hcmp hbuf
  rw [entries_bufferOf] at hperm
  exact ⟨hperm, hsorted⟩

theorem isSome_sortEntries (hcmp : TotalPreorder cmp) {l : List α} (hl : l.length ≤ 2 ^ 30) :
    (sortEntries cmp l).isSome := by
  have hsome := isSome_quicksortKeyValuePairs hcmp hl (bufferOf l)
  rw [← toInt_eq_iff.2 (show l.length < 2 ^ 31 by omega)] at hsome
  obtain ⟨buf, hbuf⟩ := Option.isSome_iff_exists.1 hsome
  rw [sortEntries, hbuf]
  rfl

theorem sortChunks_succ (fs : Files α) (n : ℕ) :
    sortChunks cmp fs (n + 1) = (sortChunks cmp fs n).bind fun fs => sortOneChunk cmp fs n := by
  simp only [sortChunks, List.range_succ, List.foldlM_append, List.foldlM_cons, List.foldlM_nil,
    Option.bind_eq_bind, Option.pure_def, Option.bind_fun_some]

/-- The chunk files that were sorted, with what they hold afterwards. -/
structure SortedFiles (cmp : α → α → ℤ) (fs fs' : Files α) (n : ℕ) : Prop where
  main : fs'.main = fs.main
  sorted : ∀ i < n, ∃ file sorted,
    fs.chunk i = some file ∧ sortEntries cmp file = some sorted ∧ fs'.chunk i = some sorted
  rest : ∀ i, n ≤ i → fs'.chunk i = fs.chunk i

theorem sortChunks_eq_some {fs fs' : Files α} {n : ℕ} (h : sortChunks cmp fs n = some fs') :
    SortedFiles cmp fs fs' n := by
  induction n generalizing fs' with
  | zero =>
    obtain rfl := Option.some.inj h
    exact ⟨rfl, nofun, fun _ _ => rfl⟩
  | succ n ih =>
    rw [sortChunks_succ] at h
    obtain ⟨fs₁, h₁, h₂⟩ := Option.bind_eq_some_iff.1 h
    have hs := ih h₁
    obtain ⟨file, hfile, h₂⟩ := Option.bind_eq_some_iff.1 h₂
    obtain ⟨sorted, hsorted, h₂⟩ := Option.bind_eq_some_iff.1 h₂
    obtain rfl := Option.some.inj h₂
    refine ⟨hs.main, fun i hi => ?_, fun i hi => ?_⟩
    · by_cases hin : i = n
      · subst hin
        rw [hs.rest i le_rfl] at hfile
        exact ⟨file, sorted, hfile, hsorted, Function.update_self ..⟩
      · obtain ⟨file', sorted', hf, hsort, hc⟩ := hs.sorted i (by omega)
        exact ⟨file', sorted', hf, hsort, (Function.update_of_ne hin ..).trans hc⟩
    · exact (Function.update_of_ne (by omega) ..).trans (hs.rest i (by omega))

theorem exists_sortChunks {fs : Files α} {n : ℕ}
    (h : ∀ i < n, ∃ file, fs.chunk i = some file ∧ (sortEntries cmp file).isSome) :
    ∃ fs', sortChunks cmp fs n = some fs' := by
  induction n with
  | zero => exact ⟨fs, rfl⟩
  | succ n ih =>
    obtain ⟨fs₁, h₁⟩ := ih fun i hi => h i (Nat.lt_succ_of_lt hi)
    obtain ⟨file, hfile, hsome⟩ := h n n.lt_succ_self
    obtain ⟨sorted, hsorted⟩ := Option.isSome_iff_exists.1 hsome
    have hfile₁ : fs₁.chunk n = some file := by rw [(sortChunks_eq_some h₁).rest n le_rfl, hfile]
    refine ⟨{ fs₁ with chunk := Function.update fs₁.chunk n (some sorted) }, ?_⟩
    rw [sortChunks_succ, h₁, Option.bind_some, sortOneChunk, hfile₁, Option.bind_eq_bind,
      Option.bind_some, hsorted]
    rfl

/-! ## The whole sort -/

/-- A run of the whole sort: every chunk file exists, its sort has a result, and so has the
merge. -/
theorem externalSort_eq_some {l : List α} {n : ℕ} {fs : Files α}
    (h : externalSort cmp (.start l) n = some fs) :
    ∃ sorted : ℕ → List α, (∀ j < n, j * entriesPerChunk l.length n < l.length ∧
        sortEntries cmp (storedChunk l (entriesPerChunk l.length n) j) = some (sorted j)) ∧
      ∃ out, mergeSortedChunks cmp ((List.range n).map sorted) = some out ∧ fs.main = some out := by
  simp only [externalSort, mergeChunkFiles, Option.bind_eq_bind, Option.bind_eq_some_iff] at h
  obtain ⟨fs₁, hpart, fs₂, hsort, files, hfiles, out, hmerge, hfs⟩ := h
  have hs := sortChunks_eq_some hsort
  have hj (j : ℕ) (hj : j < n) : j * entriesPerChunk l.length n < l.length ∧
      sortEntries cmp (storedChunk l (entriesPerChunk l.length n) j) = fs₂.chunk j := by
    obtain ⟨file, sorted, hfile, hsorted, hchunk⟩ := hs.sorted j hj
    rw [partition_chunk hpart] at hfile
    split_ifs at hfile with hlt
    obtain rfl := Option.some.inj hfile
    exact ⟨hlt, hsorted.trans hchunk.symm⟩
  have hsome (j : ℕ) (hj : j < n) : fs₂.chunk j = some ((fs₂.chunk j).getD []) := by
    obtain ⟨file, sorted, -, -, hchunk⟩ := hs.sorted j hj
    rw [hchunk]
    rfl
  refine ⟨fun j => (fs₂.chunk j).getD [], fun j hlt => ⟨(hj j hlt).1, ?_⟩, out, ?_, ?_⟩
  · rw [(hj j hlt).2]
    exact hsome j hlt
  · have hmap := mapM_eq_some_map fun j hlt => hsome j (List.mem_range.1 hlt)
    rw [hmap] at hfiles
    rwa [Option.some.inj hfiles]
  · rw [← Option.some.inj hfs]

theorem exists_externalSort {l : List α} {n : ℕ} (hm0 : 0 < entriesPerChunk l.length n)
    (hm : entriesPerChunk l.length n < 2 ^ 31) {sorted : ℕ → List α}
    (hsort : ∀ j < n, j * entriesPerChunk l.length n < l.length ∧
      sortEntries cmp (chunkOf l (entriesPerChunk l.length n) j) = some (sorted j))
    {out : List α} (hmerge : mergeSortedChunks cmp ((List.range n).map sorted) = some out) :
    ∃ fs, externalSort cmp (.start l) n = some fs ∧ fs.main = some out := by
  have hisSome : (partitionFileIntoChunks (.start l) n).isSome := by
    rw [partitionFileIntoChunks_start]
    exact isSome_chunkLoop hm0 hm rfl (Nat.succ_pos _) (by omega)
  obtain ⟨fs₁, hpart⟩ := Option.isSome_iff_exists.1 hisSome
  have hchunk (j : ℕ) (hj : j < n) :
      fs₁.chunk j = some (chunkOf l (entriesPerChunk l.length n) j) := by
    rw [partition_chunk hpart, if_pos (hsort j hj).1, storedChunk_eq hm]
  obtain ⟨fs₂, hsort₂⟩ := exists_sortChunks fun j hj =>
    ⟨_, hchunk j hj, by rw [(hsort j hj).2]; rfl⟩
  have hfile (j : ℕ) (hj : j < n) : fs₂.chunk j = some (sorted j) := by
    obtain ⟨file, sorted', hf, hs', hc⟩ := (sortChunks_eq_some hsort₂).sorted j hj
    rw [hchunk j hj] at hf
    obtain rfl := Option.some.inj hf
    rw [hc, ← hs', (hsort j hj).2]
  have hfiles : (List.range n).mapM fs₂.chunk = some ((List.range n).map sorted) :=
    mapM_eq_some_map fun j hj => hfile j (List.mem_range.1 hj)
  refine ⟨{ fs₂ with main := some out }, ?_, rfl⟩
  simp only [externalSort, mergeChunkFiles, hpart, hsort₂, hfiles, hmerge, Option.bind_eq_bind,
    Option.bind_some]

/-- The sort finishes without an error and leaves the entries in order. -/
def Sorts (cmp : α → α → ℤ) (l : List α) (n : ℕ) : Prop :=
  ∃ fs out, externalSort cmp (.start l) n = some fs ∧ fs.main = some out ∧ out.Perm l ∧
    out.Pairwise fun a b => cmp a b ≤ 0

section
variable (hcmp : TotalPreorder cmp) {l : List α} {n : ℕ} (hn : 1 ≤ n)
include hcmp hn

/-- Nothing is lost only if every chunk is read and is complete. -/
theorem Sorts.chunks (h : Sorts cmp l n) : chunkCount l.length (entriesPerChunk l.length n) = n ∧
    entriesPerChunk l.length n < 2 ^ 31 ∧
    ∀ j < n, (sortEntries cmp (chunkOf l (entriesPerChunk l.length n) j)).isSome := by
  obtain ⟨fs, out, hrun, hmain, hperm, -⟩ := h
  obtain ⟨sorted, hsort, out', hmerge, hmain'⟩ := externalSort_eq_some hrun
  rw [hmain] at hmain'
  obtain rfl := Option.some.inj hmain'
  have hl : 0 < l.length := by simpa using (hsort 0 hn).1
  have hm0 := entriesPerChunk_pos hn hl
  have hne : [] ∉ (List.range n).map sorted := fun hmem => by
    rw [mergeSortedChunks_eq_none hmem] at hmerge
    exact nomatch hmerge
  have heach (j : ℕ) (hj : j < n) :=
    sortEntries_eq_some hcmp (length_storedChunk_lt _ _ _) (hsort j hj).2
  obtain ⟨out', hmerge', hperm', -⟩ := mergeSortedChunks_eq hcmp hne (by
    intro file hfile
    obtain ⟨j, hj, rfl⟩ := List.mem_map.1 hfile
    exact (heach j (List.mem_range.1 hj)).2)
  rw [hmerge] at hmerge'
  obtain rfl := Option.some.inj hmerge'
  -- nothing is lost, so every chunk is complete
  have hsum : ((List.range n).map fun j =>
      (storedChunk l (entriesPerChunk l.length n) j).length).sum = l.length := by
    have hlen := hperm'.length_eq
    rw [hperm.length_eq, List.length_flatten, List.map_map] at hlen
    refine (congrArg List.sum (List.map_congr_left fun j hj => ?_)).trans hlen.symm
    exact (heach j (List.mem_range.1 hj)).1.length_eq.symm
  have hm := entriesPerChunk_lt hn hl hsum
  refine ⟨?_, hm, fun j hj => ?_⟩
  · refine le_antisymm (Nat.not_lt.1 fun hlt => ?_) ?_
    · have hcover := le_mul_entriesPerChunk l.length hn
      rw [lt_chunkCount hm0] at hlt
      omega
    · have hlast := (lt_chunkCount hm0).2 (hsort (n - 1) (by omega)).1
      omega
  · rw [← storedChunk_eq hm, (hsort j hj).2]
    rfl

theorem sorts_of_chunks (hcount : chunkCount l.length (entriesPerChunk l.length n) = n)
    (hm : entriesPerChunk l.length n < 2 ^ 31)
    (hsome : ∀ j < n, (sortEntries cmp (chunkOf l (entriesPerChunk l.length n) j)).isSome) :
    Sorts cmp l n := by
  have hm0 : 0 < entriesPerChunk l.length n := by
    by_contra hzero
    rw [chunkCount, Nat.eq_zero_of_not_pos hzero, Nat.div_zero] at hcount
    omega
  choose! sorted hsorted using fun j hj => Option.isSome_iff_exists.1 (hsome j hj)
  have hstart (j : ℕ) (hj : j < n) : j * entriesPerChunk l.length n < l.length := by
    rwa [← lt_chunkCount hm0, hcount]
  have hlen (j : ℕ) (hj : j < n) : 0 < (chunkOf l (entriesPerChunk l.length n) j).length ∧
      (chunkOf l (entriesPerChunk l.length n) j).length < 2 ^ 31 := by
    have := hstart j hj
    rw [length_chunkOf]
    split <;> omega
  have heach (j : ℕ) (hj : j < n) := sortEntries_eq_some hcmp (hlen j hj).2 (hsorted j hj)
  have hne : [] ∉ (List.range n).map sorted := by
    intro hmem
    obtain ⟨j, hj, hnil⟩ := List.mem_map.1 hmem
    have hj := List.mem_range.1 hj
    have hzero := (heach j hj).1.length_eq
    rw [hnil] at hzero
    exact absurd hzero (hlen j hj).1.ne
  obtain ⟨out, hmerge, hperm, hpair⟩ := mergeSortedChunks_eq hcmp hne (by
    intro file hfile
    obtain ⟨j, hj, rfl⟩ := List.mem_map.1 hfile
    exact (heach j (List.mem_range.1 hj)).2)
  obtain ⟨fs, hrun, hmain⟩ := exists_externalSort hm0 hm
    (fun j hj => ⟨hstart j hj, hsorted j hj⟩) hmerge
  refine ⟨fs, out, hrun, hmain, hperm.trans ?_, hpair⟩
  have hflat := flatten_chunks l (entriesPerChunk l.length n) n
  rw [List.take_of_length_le (le_mul_entriesPerChunk l.length hn)] at hflat
  rw [← hflat]
  exact List.Perm.flatMap_left _ fun j hj => (heach j (List.mem_range.1 hj)).1

end

/-- For every list of entries, the sort finishes without an error and leaves the entries in order
exactly when the partition makes as many chunk files as are read, their entries can be counted by an
`int`, and no index sum overflows while they are sorted. The last two hold for chunks of at most
`2^30` entries, and then only the numbers of entries and of chunks count. -/
theorem externalSort_sorts_iff (hcmp : TotalPreorder cmp) (l : List α) {n : ℕ} (hn : 1 ≤ n) :
    (Sorts cmp l n ↔
      chunkCount l.length (entriesPerChunk l.length n) = n ∧ entriesPerChunk l.length n < 2 ^ 31 ∧
      ∀ j < n, (sortEntries cmp (chunkOf l (entriesPerChunk l.length n) j)).isSome) ∧
    (entriesPerChunk l.length n ≤ 2 ^ 30 → entriesPerChunk l.length n < 2 ^ 31 ∧
      ∀ j < n, (sortEntries cmp (chunkOf l (entriesPerChunk l.length n) j)).isSome) ∧
    (entriesPerChunk l.length n ≤ 2 ^ 30 →
      (Sorts cmp l n ↔ chunkCount l.length (entriesPerChunk l.length n) = n)) := by
  have hsmall : entriesPerChunk l.length n ≤ 2 ^ 30 → entriesPerChunk l.length n < 2 ^ 31 ∧
      ∀ j < n, (sortEntries cmp (chunkOf l (entriesPerChunk l.length n) j)).isSome := by
    refine fun hle => ⟨by omega, fun j _ => isSome_sortEntries hcmp ?_⟩
    rw [length_chunkOf]
    split <;> omega
  refine ⟨⟨fun h => h.chunks hcmp hn, fun h => sorts_of_chunks hcmp hn h.1 h.2.1 h.2.2⟩, hsmall,
    fun hle => ⟨fun h => (h.chunks hcmp hn).1, fun h => ?_⟩⟩
  exact sorts_of_chunks hcmp hn h (hsmall hle).1 (hsmall hle).2

end

/-- Three entries in two chunks. -/
theorem externalSort_sorts_three : Sorts (fun a b : ℤ => a - b) [3, 1, 2] 2 :=
  ((externalSort_sorts_iff totalPreorder_sub [3, 1, 2] (n := 2) (by decide)).2.2 (by decide)).2
    (by decide)

/-- One entry in two chunks: the second chunk file does not exist. -/
theorem externalSort_one_eq_none : externalSort (fun a b : ℤ => a - b) (.start [1]) 2 = none := rfl

end Pequin.ExternalSort
