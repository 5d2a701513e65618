import Mathlib.Data.List.GetD
import Pequin.Merkle.Path

/-!
# The prover's run of an operation on a cell

The commands of an operation fill the variables of its template. When the database's answers lead to
the root that is given, the assignment they compute satisfies the constraints. The answers need not
be bits: nothing in the run asks for it, except that the sums of the hash function stay in range.
-/

namespace Pequin.Merkle
open Generator TwosComplement HashTree

section
variable (env : Env) {n : ℕ} {s : Var → ℤ}

theorem runs_assignment {y x : Var} (hs : Base s) (hy : y.Below n) (hx : x.Below n)
    (heq : s y = s x) : Runs (machine env) (assignment y x) n s fun _ m s' => m = n ∧ s' = s := by
  have hbelow : TermsBelow n [t x, tn y] := by simpa [TermsBelow, t, tn] using ⟨hx, hy⟩
  refine .bind (P := fun _ m s' => m = n ∧ s' = s) (.row ⟨?_, ?_, termsBelow_matTerms hbelow⟩ ?_
    ⟨rfl, rfl⟩) fun _ m s' _ _ hms => .cmd ?_ hms
  · simp [TermsBelow, matTerms]
  · simp [TermsBelow, matTerms]
  · rw [Row.eval, lin_matTerms hs, lin_matTerms hs, lin_nil, lin_t, lin_tn, lin_nil, heq]
    ring
  · have hval : (Cmd.poly y [(1, [x])]).values env s' = [y].map s' := by
      simp [Cmd.values, CmdPoly.eval, hms.2, heq]
    show writeAll [y] ((Cmd.poly y [(1, [x])]).values env s') s' = s'
    rw [hval, writeAll_self]

/-- Equal hashes pass a comparison, and it changes nothing. -/
theorem runs_compareTo {v1 v2 : List Var} (hs : Base s) (h1 : ∀ w ∈ v1, w.Below n)
    (h2 : ∀ w ∈ v2, w.Below n) (heq : v1.map s = v2.map s) :
    Runs (machine env) (compareTo v1 v2) n s fun _ m s' => m = n ∧ s' = s := by
  suffices h : Runs (machine env) (Gen.each (fun c => assignment c.1 c.2) (v1.zip v2)) n s
      fun _ m s' => m = n ∧ s' = s from .bind h fun _ _ _ _ _ hpost => .pure hpost
  induction v1 generalizing v2 with
  | nil => exact .pure ⟨rfl, rfl⟩
  | cons x v1 ih =>
    cases v2 with
    | nil => exact .pure ⟨rfl, rfl⟩
    | cons y v2 =>
      obtain ⟨hx, h1⟩ := List.forall_mem_cons.1 h1
      obtain ⟨hy, h2⟩ := List.forall_mem_cons.1 h2
      obtain ⟨hxy, heq⟩ := List.cons.inj heq
      refine .bind (runs_assignment env hs hx hy hxy) fun _ m s' _ _ ⟨hm, hs'⟩ => ?_
      subst hm hs'
      exact .bind (ih h1 h2 heq) fun _ _ _ _ _ hpost => .pure hpost

/-- The bits of a cell that are there already. -/
theorem runs_dbGetBits {index : Var} {values : List Var}
    (hram : values.map s = env.ram (Env.address (s index))) :
    Runs (machine env) (dbGetBits index values) n s fun _ m s' => m = n ∧ s' = s := by
  refine .cmd ?_ ⟨rfl, rfl⟩
  show writeAll values (env.ram (Env.address (s index))) s = s
  rw [← hram, writeAll_self]

/-- The bits of a cell in new variables. -/
theorem runs_oldLeaf {α : Type} (index : Var) (l : List α) {xs : List ℤ}
    (hram : env.ram (Env.address (s index)) = xs) (hlen : xs.length = l.length) :
    Runs (machine env) (Gen.each (fun _ => Gen.fresh) l >>= fun oldLeaf =>
      dbGetBits index oldLeaf >>= fun _ => pure oldLeaf) n s fun vars m s' =>
        (∀ w ∈ vars, w.Below m) ∧ vars.map s' = xs := by
  have happly : (Gen.each (fun _ => Gen.fresh) l >>= fun oldLeaf =>
      dbGetBits index oldLeaf >>= fun _ => pure oldLeaf : Gen (List Var)) n =
        ⟨block n l.length, [], [.dbGetBits index (block n l.length)], n + l.length⟩ := by
    rw [Gen.bind_apply, Gen.each_fresh]
    rfl
  refine runs_block env (c := .dbGetBits index (block n l.length)) (by rw [happly]) (by rw [happly])
    rfl
    hram hlen (by rw [happly]; simp) (fun s' _ _ => by rw [happly]; simp) fun s' _ hmap => ?_
  rw [happly]
  exact ⟨fun w hw => below_of_mem_block hw, hmap⟩

/-- The hashes that the database answers with, from the root's children on. -/
def Env.siblings (env : Env) (address levels : ℕ) : List (List ℤ) :=
  (List.range (levels - 1)).map fun i => (env.siblingHash address (i + 1)).reverse

theorem runs_getSiblingHashes {h : Hasher} (hbits : env.numHashBits = h.numHashBits) {index : Var}
    (hindex : index.Below n) {levels : ℕ}
    (hlen : ∀ i < levels - 1,
      (env.siblingHash (Env.address (s index)) (i + 1)).length = h.numHashBits) :
    Runs (machine env) (getSiblingHashes h index levels) n s fun sib m s' =>
      (∀ b ∈ sib, ∀ w ∈ b, w.Below m) ∧
        sib.map (fun b => b.map s') = env.siblings (Env.address (s index)) levels := by
  unfold getSiblingHashes
  rw [← hbits]
  refine Runs.each id _ fun i hi m s' hm hs' => ?_
  have hrun : Runs (machine env) (siblingHash index (i + 1) env.numHashBits) m s' _ :=
    runs_siblingHash env rfl (by rw [hs' index hindex, hlen i (List.mem_range.1 hi), hbits])
  rw [hs' index hindex] at hrun
  exact hrun

end

/-! ## Operations -/

/-- What the database has to answer so that an operation on the cell at `index` can be checked: as
many hashes as the path has levels, each as long as a hash, and all in range. -/
structure Answers {h : Hasher} (S : h.Spec) (env : Env) (levels index : ℕ)
    (leaf : List ℤ) : Prop where
  index_lt : index < 2 ^ levels
  numHashBits : env.numHashBits = h.numHashBits
  length_siblingHash : ∀ i < levels - 1,
    (env.siblingHash (Env.address index) (i + 1)).length = h.numHashBits
  leafRange : S.LeafRange leaf
  nodeRange : ∀ pr ∈ climbPairs S.node index (S.leaf leaf)
    (env.siblings (Env.address index) levels).reverse, S.NodeRange pr

/-- The root that the answers lead to. -/
def Env.rootBits {h : Hasher} (S : h.Spec) (env : Env) (levels index : ℕ)
    (leaf : List ℤ) : List ℤ :=
  climb S.node index (S.leaf leaf) (env.siblings (Env.address index) levels).reverse

section
variable {h : Hasher} {S : h.Spec} {env : Env} (hS : S.Executes env) {n : ℕ} {s : Var → ℤ}

/-- The variables of a path hold the bits of the index and the hashes of the siblings. -/
structure PathReady (env : Env) (levels index : ℕ) (pathBits : List Var) (sib : List (List Var))
    (n : ℕ) (s : Var → ℤ) : Prop where
  below : StepsBelow n (pathSteps pathBits sib)
  holds : PathHolds s index (pathSteps pathBits sib)
    (env.siblings (Env.address index) levels).reverse

variable {levels index : ℕ} {pathBits : List Var} {sib : List (List Var)}

/-- The old leaf is fetched first. -/
theorem putBits_eq (levels : ℕ) (root : List Var) (x : Var) (values outRoot : List Var) :
    putBits h levels root x values outRoot =
      (Gen.each (fun _ => Gen.fresh) values >>= fun oldLeaf => dbGetBits x oldLeaf >>= fun _ =>
        pure oldLeaf) >>= fun oldLeaf => split x levels >>= fun pathBits =>
          getSiblingHashes h x levels >>= fun sib =>
            checkPathBits h root oldLeaf pathBits sib >>= fun _ => dbPutBits x values >>= fun _ =>
              h.hashValueBits values >>= fun leafHash =>
                genPath h leafHash pathBits sib >>= fun r =>
                compareTo outRoot r >>= fun _ => pure ⟨oldLeaf, sib⟩ := by
  funext m
  simp only [Gen.bind_apply, Gen.pure_apply, List.append_nil, List.append_assoc, putBits]

theorem PathReady.of_agree (hready : PathReady env levels index pathBits sib n s) {m : ℕ}
    {s' : Var → ℤ} (hm : n ≤ m) (hs' : Agree n s s') :
    PathReady env levels index pathBits sib m s' :=
  ⟨hready.below.mono hm, hready.holds.of_agree hs' hready.below⟩

variable {leaf : List ℤ} (ha : Answers S env levels index leaf)
include ha

theorem Answers.length_siblings :
    ∀ v ∈ (env.siblings (Env.address index) levels).reverse, v.length = h.numHashBits := by
  intro v hv
  obtain ⟨i, hi, rfl⟩ := List.mem_map.1 (List.mem_reverse.1 hv)
  rw [List.length_reverse, ha.length_siblingHash i (List.mem_range.1 hi)]

/-- Variables with the bits of the index and the siblings make a path. -/
theorem Answers.pathReady {m : ℕ} (hpb : ∀ w ∈ pathBits, w.Below m)
    (hp : pathBits.map s = (bitsOf levels index).reverse) (hsb : ∀ b ∈ sib, ∀ w ∈ b, w.Below m)
    (hsv : sib.map (fun b => b.map s) = env.siblings (Env.address index) levels) :
    PathReady env levels index pathBits sib m s := by
  have hlt : (index : ℤ) < 2 ^ levels := by exact_mod_cast ha.index_lt
  have hlen : sib.length = levels - 1 := by
    have hl := congrArg List.length hsv
    rwa [List.length_map, Env.siblings, List.length_map, List.length_range] at hl
  have hbits : Holds s pathBits (bitsOf levels (index : ℤ)).reverse := holds_int_iff.2 hp
  have hsib : List.Forall₂ (Holds s) sib (env.siblings (Env.address index) levels) := by
    rw [← hsv]
    exact List.forall₂_map_right_iff.2 (List.forall₂_same.2 fun b _ => holds_int s b)
  have hpath := pathHolds_pathSteps (bits_bitsOf _ _).reverse hbits hsib (by
    rw [hlen, List.length_reverse, length_bitsOf])
  rw [List.reverse_reverse, unsigned_bitsOf_of_lt (by omega) hlt, Int.toNat_natCast] at hpath
  refine ⟨fun st hst => ?_, hpath⟩
  obtain ⟨h1, h2⟩ := List.of_mem_zip (List.mem_reverse.1 hst)
  exact ⟨hpb _ (List.mem_of_mem_drop h1), hsb _ h2⟩

variable {x : Var}

theorem runs_siblings (hx : x.Below n) (hidx : s x = index) :
    Runs (machine env) (getSiblingHashes h x levels) n s fun sib m s' =>
      (∀ b ∈ sib, ∀ w ∈ b, w.Below m) ∧
        sib.map (fun b => b.map s') = env.siblings (Env.address index) levels := by
  have hlens : ∀ i < levels - 1,
      (env.siblingHash (Env.address (s x)) (i + 1)).length = h.numHashBits := by
    rw [hidx]
    exact ha.length_siblingHash
  have hrun := runs_getSiblingHashes env ha.numHashBits hx hlens
  rwa [hidx] at hrun

variable (hs : Base s) (hn : 2 ≤ n)
include hs hn

theorem runs_splitIndex (hx : x.Below n) (hidx : s x = index) :
    Runs (machine env) (split x levels) n s fun pathBits m s' =>
      (∀ w ∈ pathBits, w.Below m) ∧ pathBits.map s' = (bitsOf levels index).reverse := by
  have hlt : (index : ℤ) < 2 ^ levels := by exact_mod_cast ha.index_lt
  have hrun := runs_split env hs hn hx (by omega) (by rwa [hidx])
  rwa [hidx] at hrun

/-- The index is split and the siblings are fetched. -/
theorem runs_path (hx : x.Below n) (hidx : s x = index) {α : Type}
    {k : List Var → List (List Var) → Gen α} {Q : α → ℕ → (Var → ℤ) → Prop}
    (hk : ∀ pathBits sib m s', n ≤ m → Agree n s s' →
      PathReady env levels index pathBits sib m s' →
      (∀ b ∈ sib, ∀ w ∈ b, w.Below m) →
      sib.map (fun b => b.map s') = env.siblings (Env.address index) levels →
      Runs (machine env) (k pathBits sib) m s' Q) :
    Runs (machine env) (split x levels >>= fun pathBits =>
      getSiblingHashes h x levels >>= fun sib => k pathBits sib) n s Q := by
  refine .bind (runs_splitIndex ha hs hn hx hidx) fun pathBits m s' hm hs' ⟨hpb, hp⟩ => ?_
  refine .bind (runs_siblings ha (hx.mono hm) ((hs' x hx).trans hidx))
    fun sib m' s'' hm' hs'' ⟨hsb, hsv⟩ => ?_
  have hready := ha.pathReady (fun w hw => (hpb w hw).mono hm')
    (by rw [hs''.map_eq hpb, hp]) hsb hsv
  exact hk pathBits sib m' s'' (hm.trans hm') (hs'.trans hs'' hm) hready hsb hsv

include hS

section
variable (hready : PathReady env levels index pathBits sib n s)
include hready

theorem runs_genPath {leafHash : List Var} (hb : ∀ w ∈ leafHash, w.Below n)
    (hleaf : leafHash.map s = S.leaf leaf) :
    Runs (machine env) (genPath h leafHash pathBits sib) n s fun r m s' =>
      (∀ w ∈ r, w.Below m) ∧ r.map s' = pack h.numElts (env.rootBits S levels index leaf) :=
  runs_genPathSteps hS hs hn hready.holds hready.below ha.length_siblings hb hleaf
    (S.length_leaf leaf) ha.nodeRange

/-- The root that a path leads to is computed from the leaf. -/
theorem runs_root {leafBits : List Var} (hlb : ∀ w ∈ leafBits, w.Below n)
    (hleaf : leafBits.map s = leaf) {α : Type} {k : List Var → Gen α}
    {Q : α → ℕ → (Var → ℤ) → Prop} (hk : ∀ r m s', n ≤ m → Agree n s s' →
      (∀ w ∈ r, w.Below m) → r.map s' = pack h.numElts (env.rootBits S levels index leaf) →
      Runs (machine env) (k r) m s' Q) :
    Runs (machine env) (h.hashValueBits leafBits >>= fun leafHash =>
      genPath h leafHash pathBits sib >>= k) n s Q := by
  have hrun := hS.leaf n s leafBits hn hs hlb (hleaf ▸ ha.leafRange)
  rw [hleaf] at hrun
  refine .bind hrun fun leafHash m s' hm hs' ⟨hhb, hhash⟩ => ?_
  refine .bind (runs_genPath hS ha (hs.of_agree hn hs') (hn.trans hm) (hready.of_agree hm hs') hhb
    hhash) fun r m' s'' hm' hs'' ⟨hcb, hc⟩ => ?_
  exact hk r m' s'' (hm.trans hm') (hs'.trans hs'' hm) hcb hc

/-- A path that leads to the root passes the check. -/
theorem runs_checkPathBits {leafBits root : List Var} (hlb : ∀ w ∈ leafBits, w.Below n)
    (hleaf : leafBits.map s = leaf) (hrb : ∀ w ∈ root, w.Below n)
    (hroot : root.map s = pack h.numElts (env.rootBits S levels index leaf)) :
    Runs (machine env) (checkPathBits h root leafBits pathBits sib) n s fun _ _ _ => True := by
  refine runs_root hS ha hs hn hready hlb hleaf fun r m s' hm hs' hcb hc => ?_
  refine (runs_compareTo env (hs.of_agree hn hs') hcb (fun w hw => (hrb w hw).mono hm) ?_).mono
    fun _ _ _ _ _ _ => trivial
  rw [hc, hs'.map_eq hrb, hroot]

end

/-- What a run leaves in the variables that the prover supplies. -/
structure SuppliedBy (env : Env) (levels index : ℕ) (leaf : List ℤ) (e : Supplied) (s : Var → ℤ) :
    Prop where
  leaf : e.leaf.map s = leaf
  siblings : e.siblings.map (fun b => b.map s) = env.siblings (Env.address index) levels

/-- The part of a read after the bits of the cell are fetched. -/
def checkRead (h : Hasher) (levels : ℕ) (rootHash : List Var) (index : Var) (outValues : List Var) :
    Gen Supplied := do
  let pathBits ← split index levels
  let siblingHashes ← getSiblingHashes h index levels
  checkPathBits h rootHash outValues pathBits siblingHashes
  pure ⟨outValues, siblingHashes⟩

variable (hx : x.Below n) (hidx : s x = index) {root values : List Var}
  (hvb : ∀ w ∈ values, w.Below n) (hrb : ∀ w ∈ root, w.Below n)
  (hroot : root.map s = pack h.numElts (env.rootBits S levels index leaf))
include hx hidx hvb hrb hroot

theorem runs_checkRead (hvals : values.map s = leaf) :
    Runs (machine env) (checkRead h levels root x values) n s fun e _ s' =>
      SuppliedBy env levels index leaf e s' := by
  refine runs_path ha hs hn hx hidx fun pathBits sib m₁ s₁ hm₁ hs₁ hready hsb hsib => ?_
  refine .bind (runs_checkPathBits hS ha (hs.of_agree hn hs₁) (hn.trans hm₁) hready
    (fun w hw => (hvb w hw).mono hm₁) (by rw [hs₁.map_eq hvb, hvals])
    (fun w hw => (hrb w hw).mono hm₁) (by rw [hs₁.map_eq hrb, hroot])) fun _ m₂ s₂ _ hs₂ _ => ?_
  refine .pure ⟨?_, ?_⟩
  · rw [(hs₁.trans hs₂ hm₁).map_eq hvb, hvals]
  · rw [← hsib]
    exact List.map_congr_left fun b hb => hs₂.map_eq (hsb b hb)

/-- A read of a cell that is in place already. -/
theorem runs_getBits (hram : env.ram (Env.address index) = leaf) (hvals : values.map s = leaf) :
    Runs (machine env) (getBits h levels root x values) n s fun e _ s' =>
      SuppliedBy env levels index leaf e s' := by
  refine .bind (runs_dbGetBits env (by rw [hvals, hidx, hram])) fun _ m s' _ _ ⟨hm, hs'⟩ => ?_
  subst hm hs'
  exact runs_checkRead hS ha hs hn hx hidx hvb hrb hroot hvals

/-- A write to a cell. -/
theorem runs_putBits {new : List ℤ} (ha' : Answers S env levels index new)
    (hram : env.ram (Env.address index) = leaf) (hvals : values.map s = new)
    (hlen : leaf.length = new.length) {outRoot : List Var} (hob : ∀ w ∈ outRoot, w.Below n)
    (hout : outRoot.map s = pack h.numElts (env.rootBits S levels index new)) :
    Runs (machine env) (putBits h levels root x values outRoot) n s fun e _ s' =>
      SuppliedBy env levels index leaf e s' := by
  have hold := runs_oldLeaf env (n := n) (s := s) x values (by rw [hidx, hram]) (by
    rw [hlen, ← hvals, List.length_map])
  rw [putBits_eq]
  refine .bind hold fun oldLeaf m₀ s₀ hm₀ hs₀ ⟨hob₀, hold⟩ => ?_
  refine runs_path ha (hs.of_agree hn hs₀) (hn.trans hm₀) (hx.mono hm₀) ((hs₀ x hx).trans hidx)
    fun pathBits sib m₁ s₁ hm₁ hs₁ hready hsb hsib => ?_
  have hagree₁ : Agree n s s₁ := hs₀.trans hs₁ hm₀
  have hle₁ : n ≤ m₁ := hm₀.trans hm₁
  refine .bind (runs_checkPathBits hS ha (hs.of_agree hn hagree₁) (hn.trans hle₁) hready
    (fun w hw => (hob₀ w hw).mono hm₁) (by rw [hs₁.map_eq hob₀, hold])
    (fun w hw => (hrb w hw).mono hle₁) (by rw [hagree₁.map_eq hrb, hroot]))
    fun _ m₂ s₂ hm₂ hs₂ _ => ?_
  refine .bind (.cmd (Q := fun _ m s' => m = m₂ ∧ s' = s₂) rfl ⟨rfl, rfl⟩) fun _ m s'
    _ _ ⟨hm, hs'⟩ => ?_
  subst hm hs'
  have hagree₂ : Agree n s s' := hagree₁.trans hs₂ hle₁
  have hle₂ : n ≤ m := hle₁.trans hm₂
  refine runs_root hS ha' (hs.of_agree hn hagree₂) (hn.trans hle₂) (hready.of_agree hm₂ hs₂)
    (fun w hw => (hvb w hw).mono hle₂) (by rw [hagree₂.map_eq hvb, hvals])
    fun r m₃ s₃ hm₃ hs₃ hcb hc => ?_
  have hagree₃ : Agree n s s₃ := hagree₂.trans hs₃ hle₂
  refine .bind (runs_compareTo env (hs.of_agree hn hagree₃)
    (fun w hw => (hob w hw).mono (hle₂.trans hm₃)) hcb (by rw [hagree₃.map_eq hob, hout, hc]))
    fun _ m₄ s₄ _ _ ⟨hm₄, hs₄⟩ => ?_
  subst hm₄ hs₄
  have hlast : Agree m₁ s₁ s₄ := hs₂.trans hs₃ hm₂
  refine .pure ⟨?_, ?_⟩
  · rw [hlast.map_eq fun w hw => (hob₀ w hw).mono hm₁, hs₁.map_eq hob₀, hold]
  · rw [← hsib]
    exact List.map_congr_left fun b hb => hlast.map_eq (hsb b hb)

end

/-! ## Satisfying assignments -/

theorem Satisfies.cast {s : Var → ℤ} {e : Emit Ext Cmd Supplied} (hsat : Satisfies s e) (R : Type)
    [CommRing R] : Satisfies (fun w => (s w : R)) e := by
  intro r hr
  have h := Row.eval_map (Int.castRingHom R) s r
  rw [hsat r hr, map_zero] at h
  exact h

theorem holds_cast {s : Var → ℤ} {xs : List Var} {vs : List ℤ} (hs : xs.map s = vs) (R : Type)
    [CommRing R] : Holds (fun w => (s w : R)) xs vs := by
  unfold Holds
  rw [← hs, List.map_map]
  rfl

/-- The external variables before an operation. -/
def initial (index : ℕ) (values root outRoot : List ℤ) : Var → ℤ
  | .fresh n => if n = 1 then 1 else 0
  | .ext .index => index
  | .ext (.value i) => values.getD i 0
  | .ext (.inHash i) => root.getD i 0
  | .ext (.outHash i) => outRoot.getD i 0

theorem base_initial (index : ℕ) (values root outRoot : List ℤ) :
    Base (initial index values root outRoot) := ⟨rfl, rfl⟩

theorem below_genVars {n numVars : ℕ} {v : ℕ → Ext} : ∀ w ∈ genVars numVars v, w.Below n := by
  intro w hw
  obtain ⟨i, -, rfl⟩ := List.mem_map.1 hw
  exact Generator.Wire.below_ext

theorem map_genVars {s : Var → ℤ} {v : ℕ → Ext} {xs : List ℤ}
    (hs : ∀ i, s (.ext (v i)) = xs.getD i 0) {numVars : ℕ} (hlen : xs.length = numVars) :
    (genVars numVars v).map s = xs := by
  subst hlen
  rw [genVars, List.map_map]
  refine List.ext_getElem (by simp) fun i h1 h2 => ?_
  simp [hs, List.getElem?_eq_getElem h2]

section
variable {h : Hasher} {S : h.Spec} {env : Env} (hS : S.Executes env)
  {dbSize index : ℕ} {leaf : List ℤ} (ha : Answers S env (numLevels dbSize) index leaf)
  (hram : env.ram (Env.address index) = leaf)

/-- The hash variables that no template names are zero. -/
def RestZero {R : Type} [Zero R] (h : Hasher) (z : Var → R) : Prop :=
  ∀ i, h.numElts ≤ i → z (.ext (.inHash i)) = 0 ∧ z (.ext (.outHash i)) = 0

/-- What a satisfying assignment of an operation has in the external variables and in those that the
prover supplies. -/
structure Filled (S : h.Spec) (env : Env) (dbSize index : ℕ) (leaf values : List ℤ) (op : Op)
    (s : Var → ℤ) : Prop where
  satisfies : Satisfies s (template h dbSize values.length op)
  index_eq : s (.ext .index) = index
  values_eq : (genVars values.length .value).map s = values
  root_eq : (genVars h.numElts .inHash).map s =
    pack h.numElts (env.rootBits S (numLevels dbSize) index leaf)
  supplied : SuppliedBy env (numLevels dbSize) index leaf (template h dbSize values.length op).val s
  rest : RestZero h s

/-- A run of an operation from the start is a satisfying assignment. -/
theorem exists_filled_of_runs {values outRoot : List ℤ} (hlen : outRoot.length ≤ h.numElts)
    {op : Op} (hrun : Runs (machine env) (genOp h dbSize values.length op) 2
      (initial index values (pack h.numElts (env.rootBits S (numLevels dbSize) index leaf)) outRoot)
      fun e _ s' => SuppliedBy env (numLevels dbSize) index leaf e s') :
    ∃ s, Filled S env dbSize index leaf values op s := by
  have hext := fun v => hrun.agree (.ext v) Generator.Wire.below_ext
  refine ⟨_, satisfies_template.2 ⟨(base_initial ..).of_agree le_rfl hrun.agree, hrun.rows⟩,
    hext .index, map_genVars (fun i => hext (.value i)) rfl,
    map_genVars (fun i => hext (.inHash i)) length_pack, hrun.post, fun i hi => ⟨?_, ?_⟩⟩
  · exact (hext (.inHash i)).trans (List.getD_eq_default _ _ (length_pack.trans_le hi))
  · exact (hext (.outHash i)).trans (List.getD_eq_default _ _ (hlen.trans hi))

include hS ha hram

/-- Whatever the database answers in range is a satisfying assignment of a read. -/
theorem exists_filled_getBits : ∃ s, Filled S env dbSize index leaf leaf .getBits s := by
  refine exists_filled_of_runs (Nat.zero_le _) (runs_getBits hS ha (base_initial _ _ _ []) le_rfl
    Generator.Wire.below_ext rfl below_genVars below_genVars ?_ hram ?_)
  · exact map_genVars (fun _ => rfl) length_pack
  · exact map_genVars (fun _ => rfl) rfl

/-- Whatever the database answers in range is a satisfying assignment of a write. -/
theorem exists_filled_putBits {new : List ℤ} (ha' : Answers S env (numLevels dbSize) index new)
    (hlen : leaf.length = new.length) : ∃ s, Filled S env dbSize index leaf new .putBits s := by
  refine exists_filled_of_runs length_pack.le (runs_putBits hS ha
    (base_initial _ _ _ (pack h.numElts (env.rootBits S (numLevels dbSize) index new))) le_rfl
    Generator.Wire.below_ext rfl below_genVars below_genVars ?_ ha' hram ?_ hlen below_genVars ?_)
  · exact map_genVars (fun _ => rfl) length_pack
  · exact map_genVars (fun _ => rfl) rfl
  · exact map_genVars (fun _ => rfl) length_pack

end

end Pequin.Merkle
