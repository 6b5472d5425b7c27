import MetaPB.Lib.Loop
import MetaPB.Utils.Accumulate

/-! Report items and the correction of a measured item by an idle one. Correcting touches
four fields of a record; together with the fields it leaves alone they are the record of
the shifted measurements, also component by component in an item over vectors. -/
namespace MetaPB.Utils
open Lib.Loop Lib.Moments

/-- What both branches of `operator-=` do to a record. -/
def Stats.correct (myData rhsData : Stats) : Stats :=
  if rhsData.mean > myData.mean then {}
  else { myData with
    mean := myData.mean - rhsData.mean
    sum := myData.sum - myData.rep * rhsData.mean
    upperBound := myData.upperBound - rhsData.mean
    lowerBound := myData.lowerBound - rhsData.mean }

inductive ReportData
  | stats (data : Stats)
  | vector (data : List Stats)
  deriving DecidableEq

structure ReportItem where
  name : String := ""
  data : ReportData := .stats {}
  deriving DecidableEq

/-- A loop over a vector that combines each entry with the entry of another vector. -/
def combine {α β : Type} (op : α → β → α) (vec : List α) (other : List β) : Option (List α) :=
  loop vec.length (fun i vec => do
    let mine ← vec[i]?
    let theirs ← other[i]?
    write vec i (op mine theirs)) vec

namespace ReportItem

-- `std::get` of the alternative the variant does not hold is no result
def addData (root : Root) (item : ReportItem) (newData : Double) : Option ReportItem :=
  match item.data with
  | .stats data => some { item with data := .stats (data.add root newData) }
  | .vector _ => none

def addVector (root : Root) (item : ReportItem) (newData : List Double) : Option ReportItem := do
  let vec := match item.data with
    | .stats _ => List.replicate newData.length {}
    | .vector data => data
  let vec ← combine (Stats.add root) vec newData
  return { item with data := .vector vec }

/-- `operator-=`. -/
def subtract (item rhs : ReportItem) : Option ReportItem :=
  match item.data,rhs.data with
  | .stats myData,.stats rhsData => some { item with data := .stats (myData.correct rhsData) }
  | .vector myVec,.vector rhsVec =>
    (combine Stats.correct myVec rhsVec).map fun vec => { item with data := .vector vec }
  | _,_ => none

def measure (root : Root) (item : ReportItem) (xs : List Double) : Option ReportItem :=
  xs.foldlM (addData root) item

def measureVectors (root : Root) (item : ReportItem) (frames : List (List Double)) :
    Option ReportItem :=
  frames.foldlM (addVector root) item

end ReportItem

/-- The values one component takes over a series of vectors. -/
def column (frames : List (List Double)) (i : Nat) : List Double := frames.filterMap (·[i]?)

/-- The series `ys` is `xs` less a constant. -/
def Shifted (b : ℚ) (xs ys : List Double) : Prop :=
  ys.map (·.val) = xs.map fun x => x.val - b

theorem combine_eq {α β : Type} (op : α → β → α) {vec : List α} {other : List β}
    (wide : vec.length ≤ other.length) : combine op vec other = some (List.zipWith op vec other) := by
  have looped : ∃ out, combine op vec other = some out ∧ out.length = vec.length ∧
      (∀ i < vec.length, out[i]? = (List.zipWith op vec other)[i]?) ∧
      ∀ i, vec.length ≤ i → out[i]? = vec[i]? := by
    apply loop_returns (fun count (out : List α) => out.length = vec.length ∧
      (∀ i < count, out[i]? = (List.zipWith op vec other)[i]?) ∧ ∀ i, count ≤ i → out[i]? = vec[i]?)
    · exact ⟨rfl,by simp,by simp⟩
    · intro i small out before
      obtain ⟨size,filled,rest⟩ := before
      have mine : out[i]? = some vec[i] := by rw [rest i le_rfl,List.getElem?_eq_getElem small]
      have theirs := List.getElem?_eq_getElem (small.trans_le wide)
      have bound : i < out.length := size ▸ small
      refine ⟨out.set i (op vec[i] other[i]),?_,by simpa using size,?_,?_⟩
      · simp [mine,theirs,write_of_lt bound]
      · intro j below
        rcases Nat.lt_succ_iff_lt_or_eq.mp below with earlier | rfl
        · rw [List.getElem?_set_ne (by omega)]
          exact filled j earlier
        · rw [List.getElem?_set_self bound,List.getElem?_zipWith,List.getElem?_eq_getElem small,theirs]
      · intro j later
        rw [List.getElem?_set_ne (by omega)]
        exact rest j (by omega)
  obtain ⟨out,ran,size,filled,-⟩ := looped
  rw [ran]
  congr 1
  apply List.ext_getElem?
  intro i
  rcases Nat.lt_or_ge i vec.length with small | large
  · exact filled i small
  · rw [List.getElem?_eq_none (size.trans_le large),List.getElem?_eq_none]
    rw [List.length_zipWith]
    omega

namespace Stats
variable {root : Root} {values : List ℚ} {stats bias : Stats}

theorem image_isGreatest {best : ℚ} (greatest : IsGreatest {x | x ∈ values} best) (b : ℚ) :
    IsGreatest {x | x ∈ values.map fun x => x - b} (best - b) := by
  refine ⟨List.mem_map.mpr ⟨best,greatest.1,rfl⟩,?_⟩
  intro y member
  obtain ⟨x,listed,rfl⟩ := List.mem_map.mp member
  exact sub_le_sub_right (greatest.2 listed) b

theorem image_isLeast {best : ℚ} (least : IsLeast {x | x ∈ values} best) (b : ℚ) :
    IsLeast {x | x ∈ values.map fun x => x - b} (best - b) := by
  refine ⟨List.mem_map.mpr ⟨best,least.1,rfl⟩,?_⟩
  intro y member
  obtain ⟨x,listed,rfl⟩ := List.mem_map.mp member
  exact sub_le_sub_right (least.2 listed) b

theorem sampleVariance_shift (filled : values ≠ []) (b : ℚ) :
    sampleVariance (values.map fun x => x - b) = sampleVariance values := by
  rw [sampleVariance,sampleVariance,deviations_shift filled,List.length_map]

/-- The corrected record is the summary of the shifted values: the variance and the two
distances from the mean do not change under a shift. -/
theorem Summary.correct (filled : values ≠ []) (summary : Summary root values stats)
    (below : bias.mean ≤ stats.mean) :
    Summary root (values.map fun x => x - bias.mean) (stats.correct bias) := by
  rw [Stats.correct,if_neg (not_lt.mpr below)]
  refine ⟨?_,?_,?_,?_,image_isGreatest summary.upperBound bias.mean,
    image_isLeast summary.lowerBound bias.mean,?_,?_,?_⟩
  · rw [List.length_map]
    exact summary.rep
  · rw [mean_shift filled,← summary.mean]
  · rw [sampleVariance_shift filled]
    exact summary.variance
  · rw [sampleVariance_shift filled,List.length_map]
    exact summary.stdVar
  · simp only [summary.upperBias,sub_sub_sub_cancel_right]
  · simp only [summary.lowerBias,sub_sub_sub_cancel_right]
  · rw [sum_map_sub,← summary.sum,← summary.rep]

theorem correct_addAll {xs ys : List Double} (own : xs ≠ [])
    (below : bias.mean ≤ Lib.Moments.mean (xs.map (·.val))) (shifted : Shifted bias.mean xs ys) :
    (addAll root {} xs).correct bias = addAll root {} ys := by
  have summary := addAll_summary root own
  have filled : ys ≠ [] := by
    rintro rfl
    have size := congrArg List.length shifted
    simp only [List.map_nil,List.length_nil,List.length_map] at size
    exact own (List.length_eq_zero_iff.mp size.symm)
  have target := addAll_summary root filled
  have same : ys.map (·.val) = (xs.map (·.val)).map fun x => x - bias.mean := by
    rw [List.map_map]
    exact shifted
  rw [same] at target
  exact (summary.correct (by simpa using own) (summary.mean ▸ below)).unique target

end Stats

namespace ReportItem
variable (root : Root)

theorem measure_stats (name : String) (data : Stats) (xs : List Double) :
    measure root ⟨name,.stats data⟩ xs = some ⟨name,.stats (Stats.addAll root data xs)⟩ := by
  induction xs generalizing data with
  | nil => rfl
  | cons x rest ih => exact ih (data.add root x)

/-- The components of an item over vectors are accumulated independently. -/
def Columns (frames : List (List Double)) (width : Nat) (vec : List Stats) : Prop :=
  vec.length = width ∧ ∀ i < width, vec[i]? = some (Stats.addAll root {} (column frames i))

theorem addVector_columns (name : String) {frames : List (List Double)} {frame : List Double}
    {width : Nat} {vec : List Stats} (before : Columns root frames width vec)
    (wide : width ≤ frame.length) :
    ∃ next, addVector root ⟨name,.vector vec⟩ frame = some ⟨name,.vector next⟩ ∧
      Columns root (frames ++ [frame]) width next := by
  obtain ⟨size,filled⟩ := before
  refine ⟨List.zipWith (Stats.add root) vec frame,?_,by simp [size,wide],?_⟩
  · simp [addVector,combine_eq (Stats.add root) (size.trans_le wide)]
  · intro i small
    have value := List.getElem?_eq_getElem (small.trans_le wide)
    have appended : column (frames ++ [frame]) i = column frames i ++ [frame[i]] := by
      simp [column,value]
    rw [List.getElem?_zipWith,filled i small,value,appended,Stats.addAll_snoc]

theorem addVector_first (name : String) (data : Stats) (frame : List Double) :
    addVector root ⟨name,.stats data⟩ frame =
      addVector root ⟨name,.vector (List.replicate frame.length {})⟩ frame := rfl

theorem blank_columns (width : Nat) : Columns root [] width (List.replicate width {}) := by
  refine ⟨List.length_replicate,?_⟩
  intro i small
  rw [List.getElem?_replicate_of_lt small]
  rfl

theorem measureVectors_columns (name : String) {frames rest : List (List Double)} {width : Nat}
    {vec : List Stats} (before : Columns root frames width vec)
    (wide : ∀ frame ∈ rest, width ≤ frame.length) :
    ∃ out, measureVectors root ⟨name,.vector vec⟩ rest = some ⟨name,.vector out⟩ ∧
      Columns root (frames ++ rest) width out := by
  induction rest generalizing frames vec with
  | nil => exact ⟨vec,rfl,by simpa using before⟩
  | cons frame rest ih =>
    obtain ⟨next,added,kept⟩ := addVector_columns root name before (wide frame List.mem_cons_self)
    obtain ⟨out,ran,ended⟩ := ih kept fun other member => wide other (List.mem_cons_of_mem frame member)
    refine ⟨out,?_,by simpa using ended⟩
    rw [measureVectors,List.foldlM_cons,added]
    exact ran

/-- Correcting commutes with measuring: the corrected item is the item of the shifted series,
in every component of its own where the items hold vectors. -/
theorem subtract_measure (root : Root) :
    (∀ (name idle : String) (bias : Stats) (xs ys : List Double), xs ≠ [] →
      bias.mean ≤ mean (xs.map (·.val)) → Shifted bias.mean xs ys →
      ∃ item, measure root ⟨name,.stats {}⟩ xs = some item ∧
        item.subtract ⟨idle,.stats bias⟩ = measure root ⟨name,.stats {}⟩ ys) ∧
    ∀ (name idle : String) (biases : List Stats) (first : List Double) (rest : List (List Double)),
      (∀ frame ∈ rest, first.length ≤ frame.length) → first.length ≤ biases.length →
      ∃ item out, measureVectors root ⟨name,.stats {}⟩ (first::rest) = some item ∧
        item.subtract ⟨idle,.vector biases⟩ = some ⟨name,.vector out⟩ ∧ out.length = first.length ∧
        ∀ i < first.length, ∃ bias, biases[i]? = some bias ∧
          (mean ((column (first::rest) i).map (·.val)) < bias.mean → out[i]? = some {}) ∧
          (bias.mean ≤ mean ((column (first::rest) i).map (·.val)) →
            ∀ ys, Shifted bias.mean (column (first::rest) i) ys →
              out[i]? = some (Stats.addAll root {} ys)) := by
  constructor
  · intro name idle bias xs ys filled below shifted
    refine ⟨_,measure_stats root name {} xs,?_⟩
    rw [measure_stats,← Stats.correct_addAll filled below shifted]
    rfl
  · intro name idle biases first rest wide enough
    have frames : ∀ frame ∈ first::rest, first.length ≤ frame.length :=
      List.forall_mem_cons.mpr ⟨le_rfl,wide⟩
    obtain ⟨vec,ran,size,filled⟩ :=
      measureVectors_columns root name (blank_columns root first.length) frames
    have started : measureVectors root ⟨name,.stats {}⟩ (first::rest) = some ⟨name,.vector vec⟩ := ran
    refine ⟨_,List.zipWith Stats.correct vec biases,started,?_,by simp [size,enough],?_⟩
    · simp [subtract,combine_eq Stats.correct (size.trans_le enough)]
    · intro i small
      have bias := List.getElem?_eq_getElem (small.trans_le enough)
      have measured : column (first::rest) i ≠ [] := by simp [column,small]
      have summary := Stats.addAll_summary root measured
      have corrected : (List.zipWith Stats.correct vec biases)[i]? =
          Option.some ((Stats.addAll root {} (column (first::rest) i)).correct biases[i]) := by
        rw [List.getElem?_zipWith,filled i small,bias]
        rfl
      refine ⟨biases[i],bias,?_,?_⟩
      · intro above
        rw [← summary.mean] at above
        rw [corrected,Stats.correct,if_pos above]
      · intro below ys shifted
        rw [corrected,Stats.correct_addAll measured below shifted]

theorem subtract_measure_purged :
    let two : Double := ⟨2,by decide +kernel,by decide +kernel⟩
    let four : Double := ⟨4,by decide +kernel,by decide +kernel⟩
    let six : Double := ⟨6,by decide +kernel,by decide +kernel⟩
    ∃ item out, measureVectors .exact {} [[four,two],[six,two]] = some item ∧
      item.subtract ⟨"idle",.vector [{ mean := 2 },{ mean := 9 }]⟩ = some ⟨"",.vector out⟩ ∧
      out[0]? = some (Stats.addAll .exact {} [two,four]) ∧ out[1]? = some ({} : Stats) := by
  intro two four six
  obtain ⟨-,vectors⟩ := subtract_measure .exact
  obtain ⟨item,out,ran,corrected,-,each⟩ := vectors "" "idle" [{ mean := 2 },{ mean := 9 }] [four,two]
    [[six,two]] (by simp) (by simp)
  obtain ⟨_,first,-,shifted⟩ := each 0 (by simp)
  obtain ⟨_,second,purged,-⟩ := each 1 (by simp)
  cases Option.some.inj first
  cases Option.some.inj second
  refine ⟨item,out,ran,corrected,shifted (by decide +kernel) [two,four] ?_,purged (by decide +kernel)⟩
  unfold Shifted
  decide +kernel

end ReportItem
end MetaPB.Utils
