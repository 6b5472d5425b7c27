import Mathlib.Data.List.Chain
import Mathlib.Data.List.Nodup
import Mathlib.Data.Nat.Bitwise
import Mathlib.Data.Nat.Log
import Mathlib.Data.Nat.Size

/-! Powers of two on machine words and the butterfly network on `2^m` positions. Layer `s`
links positions that agree in all bits but bit `s`, so every path from the first layer to
the last one is fixed by its ends. -/
namespace MetaPB.Lib.Butterfly

/-- Every bit of `y` tells whether `x` has a bit in the window of `width` bits from there. -/
def Spread (width x y : Nat) : Prop :=
  ∀ j, y.testBit j = true ↔ ∃ i, j ≤ i ∧ i < j + width ∧ x.testBit i = true

theorem spread_self (x : Nat) : Spread 1 x x := by
  intro j
  constructor
  · intro set
    exact ⟨j,le_rfl,Nat.lt_succ_self j,set⟩
  · intro found
    obtain ⟨i,above,below,set⟩ := found
    have same : i = j := by omega
    exact same ▸ set

theorem Spread.double {width x y : Nat} (spread : Spread width x y) :
    Spread (width + width) x (y ||| y >>> width) := by
  intro j
  rw [Nat.testBit_or,Nat.testBit_shiftRight,Bool.or_eq_true,spread,spread]
  constructor
  · intro found
    rcases found with ⟨i,above,below,set⟩ | ⟨i,above,below,set⟩
    · exact ⟨i,above,by omega,set⟩
    · exact ⟨i,by omega,by omega,set⟩
  · intro found
    obtain ⟨i,above,below,set⟩ := found
    rcases Nat.lt_or_ge i (j + width) with near | far
    · exact Or.inl ⟨i,above,near,set⟩
    · exact Or.inr ⟨i,by omega,by omega,set⟩

/-- A window as wide as the word sets all bits up to the highest one. -/
theorem Spread.eq_ones {width x y : Nat} (spread : Spread width x y) (small : x < 2^width) :
    y = 2^x.size - 1 := by
  apply Nat.eq_of_testBit_eq
  intro j
  rw [Nat.testBit_two_pow_sub_one,Bool.eq_iff_iff,spread,decide_eq_true_iff]
  constructor
  · intro found
    obtain ⟨i,above,-,set⟩ := found
    exact above.trans_lt (Nat.lt_size.mpr (Nat.ge_two_pow_of_testBit set))
  · intro below
    have bound : x.size ≤ width := Nat.size_le.mpr small
    obtain ⟨i,above,set⟩ := Nat.exists_ge_and_testBit_of_ge_two_pow (Nat.lt_size.mp below)
    have inside : i < x.size := Nat.lt_size.mpr (Nat.ge_two_pow_of_testBit set)
    exact ⟨i,above,by omega,set⟩

theorem size_pred_eq_clog {n : Nat} (positive : 1 ≤ n) : (n - 1).size = Nat.clog 2 n := by
  apply Nat.le_antisymm
  · rw [Nat.size_le]
    have above := Nat.le_pow_clog Nat.one_lt_two n
    omega
  · rw [Nat.clog_le_iff_le_pow Nat.one_lt_two]
    have above := Nat.lt_size_self (n - 1)
    omega

/-- Positions linked across layer `s`: they agree above bit `s` and below it. -/
def Link (s a b : Nat) : Prop := a / 2^(s + 1) = b / 2^(s + 1) ∧ a % 2^s = b % 2^s

theorem Link.testBit {s a b j : Nat} (link : Link s a b) (apart : j ≠ s) :
    a.testBit j = b.testBit j := by
  rcases Nat.lt_or_ge j s with below | above
  · have low := congrArg (·.testBit j) link.2
    simpa [Nat.testBit_mod_two_pow,below] using low
  · have high := congrArg (·.testBit (j - (s + 1))) link.1
    have same : j - (s + 1) + (s + 1) = j := by omega
    simpa [Nat.testBit_div_two_pow,same] using high

theorem link_of_testBit {s a b : Nat} (agree : ∀ j, j ≠ s → a.testBit j = b.testBit j) :
    Link s a b := by
  constructor
  · apply Nat.eq_of_testBit_eq
    intro j
    rw [Nat.testBit_div_two_pow,Nat.testBit_div_two_pow]
    exact agree _ (by omega)
  · apply Nat.eq_of_testBit_eq
    intro j
    rw [Nat.testBit_mod_two_pow,Nat.testBit_mod_two_pow]
    rcases Nat.lt_or_ge j s with below | above
    · rw [agree j below.ne]
    · simp [Nat.not_lt.mpr above]

theorem Link.symm {s a b : Nat} (link : Link s a b) : Link s b a := ⟨link.1.symm,link.2.symm⟩

theorem Link.trans {s a b c : Nat} (first : Link s a b) (second : Link s b c) : Link s a c :=
  ⟨first.1.trans second.1,first.2.trans second.2⟩

theorem eq_ends (s a : Nat) :
    a = a / 2^(s + 1) * 2^(s + 1) + a % 2^s ∨ a = a / 2^(s + 1) * 2^(s + 1) + a % 2^s + 2^s := by
  have whole := Nat.div_add_mod' a (2^(s + 1))
  have part := Nat.mod_mod_of_dvd a (Nat.pow_dvd_pow 2 (Nat.le_succ s))
  have inner := Nat.div_add_mod' (a % 2^(s + 1)) (2^s)
  have bound : a % 2^(s + 1) < 2^s * 2 := Nat.mod_lt _ (Nat.two_pow_pos _)
  have bit : a % 2^(s + 1) / 2^s < 2 := Nat.div_lt_of_lt_mul bound
  rw [part] at inner
  generalize a % 2^(s + 1) / 2^s = half at inner bit
  obtain rfl | rfl : half = 0 ∨ half = 1 := by omega
  · exact Or.inl (by omega)
  · exact Or.inr (by omega)

theorem parts_of_ends {s block k a : Nat} (offset : k < 2^s)
    (ends : a = block * 2^(s + 1) + k ∨ a = block * 2^(s + 1) + k + 2^s) :
    a / 2^(s + 1) = block ∧ a % 2^s = k := by
  have double : 2^(s + 1) = 2 * 2^s := Nat.pow_succ'
  rcases ends with rfl | rfl
  · constructor
    · rw [Nat.add_comm,Nat.add_mul_div_right _ _ (Nat.two_pow_pos _),Nat.div_eq_of_lt (by omega),Nat.zero_add]
    · rw [double,← Nat.mul_assoc,Nat.mul_add_mod_self_right,Nat.mod_eq_of_lt offset]
  · constructor
    · rw [Nat.add_assoc,Nat.add_comm,Nat.add_mul_div_right _ _ (Nat.two_pow_pos _),
        Nat.div_eq_of_lt (by omega),Nat.zero_add]
    · rw [Nat.add_mod_right,double,← Nat.mul_assoc,Nat.mul_add_mod_self_right,Nat.mod_eq_of_lt offset]

theorem link_iff_ends {s block k b : Nat} (offset : k < 2^s) :
    Link s (block * 2^(s + 1) + k) b ↔ b = block * 2^(s + 1) + k ∨ b = block * 2^(s + 1) + k + 2^s := by
  obtain ⟨high,low⟩ := parts_of_ends offset (Or.inl rfl)
  constructor
  · intro link
    have blockAt := high.symm.trans link.1
    have offsetAt := low.symm.trans link.2
    rw [blockAt,offsetAt]
    exact eq_ends s b
  · intro ends
    obtain ⟨blockAt,offsetAt⟩ := parts_of_ends offset ends
    exact ⟨high.trans blockAt.symm,low.trans offsetAt.symm⟩

theorem link_block (s a : Nat) : Link s (a / 2^(s + 1) * 2^(s + 1) + a % 2^s) a :=
  (link_iff_ends (Nat.mod_lt a (Nat.two_pow_pos s))).mpr (eq_ends s a)

section Paths
variable {V : Type*}

/-- A list of vertices that follows edges from one vertex to another. -/
structure Walk (edge : V → V → Prop) (u v : V) (path : List V) : Prop where
  chain : path.IsChain edge
  starts : path.head? = some u
  ends : path.getLast? = some v

/-- A graph whose edges from the layers are those of a butterfly, with vertices from which
no layer is reached after the last one. -/
structure Layers (edge : V → V → Prop) (vertex : Nat → Nat → V) (m : Nat) : Prop where
  injective : ∀ s x t y, s ≤ m → x < 2^m → t ≤ m → y < 2^m → vertex s x = vertex t y → s = t ∧ x = y
  inner : ∀ s < m, ∀ x < 2^m, ∀ v, edge (vertex s x) v ↔ ∃ y < 2^m, Link s x y ∧ v = vertex (s + 1) y
  last : ∀ x < 2^m, ∀ v, edge (vertex m x) v →
    (∀ w, ¬ edge v w) ∧ ∀ s ≤ m, ∀ y < 2^m, v ≠ vertex s y

variable {edge : V → V → Prop} {u v : V}

theorem walk_singleton (u : V) : Walk edge u u [u] := ⟨List.isChain_singleton u,rfl,rfl⟩

theorem Walk.cons {w : V} {path : List V} (linked : edge u w) (walk : Walk edge w v path) :
    Walk edge u v (u::path) := by
  obtain ⟨chain,starts,ends⟩ := walk
  cases path with
  | nil => cases starts
  | cons head rest =>
    cases Option.some.inj starts
    exact ⟨List.isChain_cons_cons.mpr ⟨linked,chain⟩,rfl,by simpa using ends⟩

theorem Walk.cases {path : List V} (walk : Walk edge u v path) :
    path = [u] ∧ u = v ∨ ∃ w rest, path = u::rest ∧ edge u w ∧ Walk edge w v rest := by
  obtain ⟨chain,starts,ends⟩ := walk
  match path,starts with
  | [head],starts =>
    cases Option.some.inj starts
    exact Or.inl ⟨rfl,by simpa using ends⟩
  | head::next::rest,starts =>
    cases Option.some.inj starts
    obtain ⟨linked,later⟩ := List.isChain_cons_cons.mp chain
    exact Or.inr ⟨next,next::rest,rfl,linked,later,rfl,by simpa using ends⟩

theorem exists_link {s m x : Nat} (layer : s < m) (inside : x < 2^m) (bit : Bool) :
    ∃ y < 2^m, Link s x y ∧ y.testBit s = bit := by
  rcases eq_or_ne (x.testBit s) bit with same | other
  · exact ⟨x,inside,⟨rfl,rfl⟩,same⟩
  · refine ⟨x ^^^ 2^s,Nat.xor_lt_two_pow inside (Nat.pow_lt_pow_right Nat.one_lt_two layer),?_,?_⟩
    · apply link_of_testBit
      intro j apart
      simp [Nat.testBit_xor,apart.symm]
    · cases bit <;> simpa [Nat.testBit_xor] using other

variable {vertex : Nat → Nat → V} {m : Nat}

theorem Layers.walk_last (layers : Layers edge vertex m) {x y : Nat} (inside : x < 2^m)
    (goal : y < 2^m) {path : List V} (walk : Walk edge (vertex m x) (vertex m y) path) :
    path = [vertex m x] ∧ x = y := by
  rcases walk.cases with ⟨single,same⟩ | ⟨w,rest,rfl,linked,later⟩
  · exact ⟨single,(layers.injective m x m y le_rfl inside le_rfl goal same).2⟩
  · obtain ⟨dead,outside⟩ := layers.last x inside w linked
    rcases later.cases with ⟨-,back⟩ | ⟨next,_,_,further,_⟩
    · exact absurd back (outside m le_rfl y goal)
    · exact absurd further (dead next)

theorem Layers.walk_inner (layers : Layers edge vertex m) {s x y : Nat} (layer : s < m)
    (inside : x < 2^m) (goal : y < 2^m) {path : List V}
    (walk : Walk edge (vertex s x) (vertex m y) path) :
    ∃ z rest, z < 2^m ∧ Link s x z ∧ path = vertex s x::rest ∧
      Walk edge (vertex (s + 1) z) (vertex m y) rest := by
  rcases walk.cases with ⟨-,same⟩ | ⟨w,rest,rfl,linked,later⟩
  · exact absurd (layers.injective s x m y layer.le inside le_rfl goal same).1 layer.ne
  · obtain ⟨z,bound,link,rfl⟩ := (layers.inner s layer x inside w).mp linked
    exact ⟨z,rest,bound,link,rfl,later⟩

/-- The bits below its layer that a walk starts with are those it ends with. -/
theorem Layers.walk_agree (layers : Layers edge vertex m) {o : Nat} (goal : o < 2^m) {s x : Nat}
    (layer : s ≤ m) (inside : x < 2^m) {path : List V}
    (walk : Walk edge (vertex s x) (vertex m o) path) : ∀ j < s, x.testBit j = o.testBit j := by
  obtain ⟨rest,total⟩ := Nat.exists_eq_add_of_le layer
  induction rest generalizing s x path with
  | zero =>
    have final : m = s := total
    subst final
    obtain ⟨-,rfl⟩ := layers.walk_last inside goal walk
    exact fun _ _ => rfl
  | succ rest ih =>
    obtain ⟨z,_,bound,link,-,later⟩ := layers.walk_inner (by omega) inside goal walk
    intro j below
    rw [link.testBit below.ne]
    exact ih (by omega) bound later (by omega) j (by omega)

/-- From a position that agrees with the goal below its layer there is one way on: each
further layer has to set its own bit. -/
theorem Layers.existsUnique_walk (layers : Layers edge vertex m) {o : Nat} (goal : o < 2^m)
    {s x : Nat} (layer : s ≤ m) (inside : x < 2^m) (agree : ∀ j < s, x.testBit j = o.testBit j) :
    ∃! path, Walk edge (vertex s x) (vertex m o) path := by
  obtain ⟨rest,total⟩ := Nat.exists_eq_add_of_le layer
  induction rest generalizing s x with
  | zero =>
    have final : m = s := total
    subst final
    have same : x = o := by
      apply Nat.eq_of_testBit_eq
      intro j
      rcases Nat.lt_or_ge j m with below | above
      · exact agree j below
      · have power := Nat.pow_le_pow_right Nat.zero_lt_two above
        rw [Nat.testBit_lt_two_pow (inside.trans_le power),Nat.testBit_lt_two_pow (goal.trans_le power)]
    subst same
    exact ⟨[vertex m x],walk_singleton _,fun _ walk => (layers.walk_last inside inside walk).1⟩
  | succ rest ih =>
    have more : s < m := by omega
    obtain ⟨y,small,link,bit⟩ := exists_link more inside (o.testBit s)
    have onward : ∀ j < s + 1, y.testBit j = o.testBit j := by
      intro j below
      rcases Nat.lt_succ_iff_lt_or_eq.mp below with earlier | rfl
      · rw [← link.testBit earlier.ne]
        exact agree j earlier
      · exact bit
    obtain ⟨path,walk,only⟩ := ih more small onward (by omega)
    have first : edge (vertex s x) (vertex (s + 1) y) :=
      (layers.inner s more x inside _).mpr ⟨y,small,link,rfl⟩
    refine ⟨vertex s x::path,walk.cons first,?_⟩
    intro other otherWalk
    obtain ⟨z,tail,bound,linkZ,rfl,later⟩ := layers.walk_inner more inside goal otherWalk
    have same : z = y := by
      apply Nat.eq_of_testBit_eq
      intro j
      rcases eq_or_ne j s with rfl | apart
      · rw [bit]
        exact layers.walk_agree goal more bound later j (Nat.lt_succ_self j)
      · rw [← linkZ.testBit apart,link.testBit apart]
    subst same
    rw [only tail later]

end Paths
end MetaPB.Lib.Butterfly
