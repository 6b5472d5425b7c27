import MetaPB.Lib.Decimal
import MetaPB.Lib.Delimited
import MetaPB.Operator.SampleSlots

/-! The text of a model cache file: a header, then one row per sample with the size of its
workload, its time and its energy. Both loops count the samples they meet, so a row lands
in the slot it was written from. The size is text the reader passes over. -/
namespace MetaPB.Operator
open Utils Lib.Decimal Lib.Delimited Lib.Loop Lib.Word

namespace OperatorBase

def header : List Char := "dataSize_MiB,timeCost_Second,energyCost_joule".toList

def sampleRow (dataSize : List Char) (stats : PerfStats) : List Char :=
  dataSize ++ ','::(fixed 6 stats.timeCostSecond ++ ','::fixed 6 stats.energyCostJoule)

/-- One turn of the saving loop; a row is ended unless it is the last. -/
def saveSample (dataSize : Nat → List Char) (deducePageBlkUpperBound : Nat) (src : PerfSamples)
    (dataFile : List Char) (point : Nat × Nat) : Option (List Char) :=
  let pageCntStep := deducePageBlkUpperBound / (perfSamplePoint - 1)
  (src.read point.2).map fun stats => dataFile ++ (sampleRow (dataSize point.1) stats ++
    if point.1 + pageCntStep ≤ deducePageBlkUpperBound then ['\n'] else [])

/-- The file as written, or `none` where more samples are read than there are. The text of
a row's workload is a parameter. -/
def savePerfSamples (dataSize : Nat → List Char) (deducePageBlkUpperBound : Nat) (src : PerfSamples) :
    Option (List Char) :=
  let pageCntStep := deducePageBlkUpperBound / (perfSamplePoint - 1)
  (counters (· ≤ deducePageBlkUpperBound) (fun pageCnt => wrap32 (pageCnt + pageCntStep))
    (perfSamplePoint + 2) 0).bind fun pageCnts =>
      pageCnts.zipIdx.foldlM (saveSample dataSize deducePageBlkUpperBound src) (header ++ ['\n'])

/-- The numbers of a row; a text that is none ends the program. -/
def parseRow (line : List Char) : Option PerfStats :=
  let words := line.splitOn ','
  -- past the end of the line `getline` leaves the word before in place
  let word (index : Nat) := words.getD index (words.getLastD [])
  (strtod (word 1)).bind fun timeCostSecond => (strtod (word 2)).map fun energyCostJoule =>
    { timeCostSecond := timeCostSecond, energyCostJoule := energyCostJoule }

def loadPerfSamplesFile (dst : PerfSamples) (file : List Char) : Option PerfSamples :=
  ((lines file).tail.mapM parseRow).bind (loadPerfSamples dst)

end OperatorBase

/-- What six decimals keep of a sample. -/
def printed (stats : PerfStats) : PerfStats where
  timeCostSecond := rounded 6 stats.timeCostSecond
  energyCostJoule := rounded 6 stats.energyCostJoule

/-- A file of so many rows. -/
def sampleFile (dataSize : Nat → List Char) (samples : Nat → PerfStats) (count : Nat) : List Char :=
  ['\n'].intercalate
    (OperatorBase.header::(List.range count).map fun k => OperatorBase.sampleRow (dataSize k) (samples k))

theorem fixed_column (places : Nat) (value : ℚ) : ',' ∉ fixed places value ∧ '\n' ∉ fixed places value :=
  ⟨not_mem_fixed (by decide) (by decide) (by decide),not_mem_fixed (by decide) (by decide) (by decide)⟩

section Row
open OperatorBase
variable {dataSize : List Char} {stats : PerfStats}

theorem parseRow_sampleRow (column : ',' ∉ dataSize) :
    parseRow (sampleRow dataSize stats) = some (printed stats) := by
  have joined : sampleRow dataSize stats =
      [','].intercalate [dataSize,fixed 6 stats.timeCostSecond,fixed 6 stats.energyCostJoule] := by
    simp [sampleRow,List.intercalate]
  have words : (sampleRow dataSize stats).splitOn ',' =
      [dataSize,fixed 6 stats.timeCostSecond,fixed 6 stats.energyCostJoule] := by
    rw [joined]
    apply List.splitOn_intercalate
    · simp [column,fixed_column]
    · simp
  simp [parseRow,words,strtod_fixed,printed]

theorem newline_not_mem_sampleRow (column : '\n' ∉ dataSize) : '\n' ∉ sampleRow dataSize stats := by
  simp [sampleRow,column,fixed_column]

theorem sampleRow_ne_nil : sampleRow dataSize stats ≠ [] := by simp [sampleRow]

theorem sampleRow_printed (nonneg : 0 ≤ stats.timeCostSecond ∧ 0 ≤ stats.energyCostJoule) :
    sampleRow dataSize (printed stats) = sampleRow dataSize stats := by
  rw [sampleRow,sampleRow,printed,fixed_rounded 6 nonneg.1,fixed_rounded 6 nonneg.2]

end Row

section File
open OperatorBase
variable {dataSize : Nat → List Char} {count : Nat} {samples : Nat → PerfStats}

theorem loadPerfSamplesFile_sampleFile (counted : 0 < count) (few : count ≤ perfSamplePoint + 1)
    (column : ∀ k, ',' ∉ dataSize k ∧ '\n' ∉ dataSize k) (dst : PerfSamples) :
    ∃ loaded, loadPerfSamplesFile dst (sampleFile dataSize samples count) = Option.some loaded ∧
      ∀ i, loaded i = if i.val < count then printed (samples i) else dst i := by
  obtain ⟨last,rfl⟩ := Nat.exists_eq_add_of_le' counted
  set row : Nat → List Char := fun k => sampleRow (dataSize k) (samples k) with rows
  have read : lines (sampleFile dataSize samples (last + 1)) = header::(List.range (last + 1)).map row := by
    have shape : header::(List.range (last + 1)).map row =
        (header::(List.range last).map row) ++ [row last] := by simp [List.range_succ]
    rw [sampleFile,shape]
    apply lines_intercalate sampleRow_ne_nil
    intro piece member
    rw [← shape] at member
    rcases List.mem_cons.mp member with rfl | later
    · decide
    · obtain ⟨k,-,rfl⟩ := List.mem_map.mp later
      exact newline_not_mem_sampleRow (column k).2
  have parsed : ((List.range (last + 1)).map row).mapM parseRow =
      Option.some ((List.range (last + 1)).map fun k => printed (samples k)) := by
    rw [List.mapM_map]
    exact mapM_of_forall fun k _ => parseRow_sampleRow (column k).1
  obtain ⟨loaded,filled,slots⟩ := loadPerfSamples_spec dst
    ((List.range (last + 1)).map fun k => printed (samples k)) (by simpa using few)
  refine ⟨loaded,?_,?_⟩
  · rw [loadPerfSamplesFile,read,List.tail_cons,parsed]
    exact filled
  · intro i
    rw [slots]
    split
    next inside => simp [inside]
    next outside => simp [outside]

end File

section Saving
open OperatorBase
variable {dataSize : Nat → List Char} {upperBound : Nat}

/-- Sample `k`, for slots that exist. -/
def sampleAt (src : PerfSamples) (k : Nat) : PerfStats := (src.read k).getD 0

theorem read_sampleAt (src : PerfSamples) {k : Nat} (inside : k ≤ perfSamplePoint) :
    src.read k = some (sampleAt src k) := by
  rw [sampleAt,src.read_of_le inside]
  rfl

theorem sampleAt_val (src : PerfSamples) (i : Fin (perfSamplePoint + 1)) : sampleAt src i = src i := by
  rw [sampleAt,src.read_of_le (Nat.le_of_lt_succ i.isLt)]
  rfl

theorem foldlM_saveSample (src : PerfSamples) (items : List Nat) (dataFile : List Char)
    (few : ∀ k ∈ items, k ≤ perfSamplePoint) :
    (items.map fun k => (k * (upperBound / 15),k)).foldlM (saveSample dataSize upperBound src) dataFile =
      some (dataFile ++ items.flatMap fun k =>
        sampleRow (dataSize (k * (upperBound / 15))) (sampleAt src k) ++
          if k * (upperBound / 15) + upperBound / 15 ≤ upperBound then ['\n'] else []) := by
  induction items generalizing dataFile with
  | nil => simp
  | cons k rest ih =>
    have turn : saveSample dataSize upperBound src dataFile (k * (upperBound / 15),k) =
        some (dataFile ++ (sampleRow (dataSize (k * (upperBound / 15))) (sampleAt src k) ++
          if k * (upperBound / 15) + upperBound / 15 ≤ upperBound then ['\n'] else [])) := by
      rw [saveSample,read_sampleAt src (few k (by simp))]
      rfl
    rw [List.map_cons,List.foldlM_cons,turn]
    exact (ih _ fun other member => few other (by simp [member])).trans (by simp)

/-- Where the counter does not wrap around, the last row is the one that no newline follows. -/
theorem savePerfSamples_eq (large : 15 ≤ upperBound) (few : upperBound / (upperBound / 15) ≤ 16)
    (fits : (upperBound / (upperBound / 15) + 1) * (upperBound / 15) < 2^32) (src : PerfSamples) :
    savePerfSamples dataSize upperBound src = some (sampleFile (fun k => dataSize (k * (upperBound / 15)))
      (sampleAt src) (upperBound / (upperBound / 15) + 1)) := by
  have positive : 0 < upperBound / 15 := Nat.div_pos large (by decide)
  set step := upperBound / 15 with isStep
  set last := upperBound / step with isLast
  have visited : trainingPoints upperBound = some ((List.range (last + 1)).map (· * step)) :=
    trainingPoints_iff.mpr ⟨⟨large,few,fits⟩,rfl⟩
  have indexed : ((List.range (last + 1)).map (· * step)).zipIdx =
      (List.range (last + 1)).map fun k => (k * step,k) := by
    apply List.ext_getElem
    · simp
    · intro k _ _
      simp
  have inner : ∀ k ∈ List.range last, decide (k * step + step ≤ upperBound) = true := by
    intro k member
    have below := Nat.mul_le_mul_right step (Nat.succ_le_of_lt (List.mem_range.mp member))
    rw [Nat.succ_mul] at below
    exact decide_eq_true (below.trans (Nat.div_mul_le_self upperBound step))
  have final : decide (last * step + step ≤ upperBound) = false := by
    have above := Nat.lt_mul_div_succ upperBound positive
    rw [Nat.mul_comm,← isLast,Nat.succ_mul] at above
    exact decide_eq_false above.not_ge
  have joined := flatMap_delimiter (fun k => sampleRow (dataSize (k * step)) (sampleAt src k)) '\n' _
    inner final
  have saved : savePerfSamples dataSize upperBound src = (trainingPoints upperBound).bind fun pageCnts =>
      pageCnts.zipIdx.foldlM (saveSample dataSize upperBound src) (header ++ ['\n']) := rfl
  rw [saved,visited,Option.bind_some,indexed]
  refine (foldlM_saveSample src (List.range (last + 1)) _ ?_).trans ?_
  · exact fun k member => (Nat.le_of_lt_succ (List.mem_range.mp member)).trans few
  · simp only [decide_eq_true_eq] at joined
    rw [List.range_succ,joined,sampleFile,List.intercalate_cons_of_ne_nil (by simp),List.range_succ,
      List.append_assoc]

theorem savePerfSamples_points {src : PerfSamples} {file : List Char}
    (saved : savePerfSamples dataSize upperBound src = some file) :
    ∃ points, trainingPoints upperBound = some points := by
  obtain ⟨points,visited,-⟩ := Option.bind_eq_some_iff.mp saved
  exact ⟨points,visited⟩

theorem savePerfSamples_fits {src : PerfSamples} {file : List Char}
    (saved : savePerfSamples dataSize upperBound src = some file) :
    (upperBound / (upperBound / 15) + 1) * (upperBound / 15) < 2^32 := by
  obtain ⟨points,visited⟩ := savePerfSamples_points saved
  exact (trainingPoints_iff.mp visited).1.2.2

end Saving

/-- Reading the written file restores the printed samples in their slots and nothing else,
and saving what was read writes the file again. -/
structure RoundTrips (dataSize : Nat → List Char) (upperBound : Nat) (src dst : PerfSamples)
    (file : List Char) (loaded : PerfSamples) : Prop where
  saved : OperatorBase.savePerfSamples dataSize upperBound src = some file
  read : OperatorBase.loadPerfSamplesFile dst file = some loaded
  restored : ∀ i, i.val ≤ upperBound / (upperBound / 15) →
    (loaded i).timeCostSecond = rounded 6 (src i).timeCostSecond ∧
      (loaded i).energyCostJoule = rounded 6 (src i).energyCostJoule
  kept : ∀ i, upperBound / (upperBound / 15) < i.val → loaded i = dst i
  again : OperatorBase.savePerfSamples dataSize upperBound loaded = some file

section Trip
open OperatorBase

/-- The cache round-trips exactly where the saving loop's counter does not wrap around. -/
theorem modelCache_roundTrips_iff (dataSize : Nat → List Char) (upperBound : Nat) (src dst : PerfSamples)
    (large : 15 ≤ upperBound) (few : upperBound / (upperBound / 15) ≤ 16)
    (column : ∀ pageCnt, ',' ∉ dataSize pageCnt ∧ '\n' ∉ dataSize pageCnt)
    (nonneg : ∀ i, 0 ≤ (src i).timeCostSecond ∧ 0 ≤ (src i).energyCostJoule) :
    (∃ file loaded, RoundTrips dataSize upperBound src dst file loaded) ↔
      (upperBound / (upperBound / 15) + 1) * (upperBound / 15) < 2^32 := by
  constructor
  · intro found
    obtain ⟨file,loaded,trips⟩ := found
    exact savePerfSamples_fits trips.saved
  · intro fits
    set count := upperBound / (upperBound / 15) + 1 with rows
    set label : Nat → List Char := fun k => dataSize (k * (upperBound / 15))
    have written (samples : PerfSamples) : savePerfSamples dataSize upperBound samples =
        some (sampleFile label (sampleAt samples) count) := savePerfSamples_eq large few fits samples
    obtain ⟨loaded,read,slots⟩ : ∃ loaded,
        loadPerfSamplesFile dst (sampleFile label (sampleAt src) count) = some loaded ∧
          ∀ i, loaded i = if i.val < count then printed (sampleAt src i) else dst i :=
      loadPerfSamplesFile_sampleFile (Nat.succ_pos _) (Nat.succ_le_succ few)
        (fun k => column (k * (upperBound / 15))) dst
    refine ⟨_,loaded,written src,read,?_,?_,?_⟩
    · intro i inside
      rw [slots i,if_pos (Nat.lt_succ_of_le inside),sampleAt_val]
      exact ⟨rfl,rfl⟩
    · intro i outside
      rw [slots i,if_neg (Nat.not_lt.mpr outside)]
    · rw [written loaded,sampleFile,sampleFile]
      congr 3
      apply List.map_congr_left
      intro k member
      have inside := List.mem_range.mp member
      have slot : k < perfSamplePoint + 1 := inside.trans_le (Nat.succ_le_succ few)
      have same : sampleAt loaded k = printed (sampleAt src k) :=
        (sampleAt_val loaded ⟨k,slot⟩).trans ((slots ⟨k,slot⟩).trans (if_pos inside))
      have stored : sampleAt src k = src ⟨k,slot⟩ := sampleAt_val src ⟨k,slot⟩
      rw [same,stored]
      exact sampleRow_printed (nonneg ⟨k,slot⟩)

/-- Sizes of page blocks in MiB, as `std::to_string` writes them. -/
def sizeText (pageCnt : Nat) : List Char := fixed 6 (pageCnt * pageBlkSize / 2^20)

theorem modelCache_roundTrips_thirds : ∃ file loaded,
    RoundTrips sizeText 16 (fun _ => ⟨1/3,2/3,0⟩) (fun _ => 0) file loaded :=
  (modelCache_roundTrips_iff sizeText 16 _ _ (by decide) (by decide) (fun _ => fixed_column 6 _)
    (fun _ => by norm_num)).mpr (by decide)

/-- With the largest bound the counter starts over and the loop reads past the samples. -/
theorem modelCache_not_roundTripping : ¬ ∀ (dataSize : Nat → List Char) (upperBound : Nat)
    (src dst : PerfSamples), 15 ≤ upperBound → upperBound / (upperBound / 15) ≤ 16 →
      upperBound < 2^32 → (∀ pageCnt, ',' ∉ dataSize pageCnt ∧ '\n' ∉ dataSize pageCnt) →
      (∀ i, 0 ≤ (src i).timeCostSecond ∧ 0 ≤ (src i).energyCostJoule) →
      ∃ file loaded, RoundTrips dataSize upperBound src dst file loaded := by
  intro always
  obtain ⟨file,loaded,trips⟩ := always sizeText (2^32 - 1) (fun _ => 0) (fun _ => 0) (by decide)
    (by decide) (by decide) (fun _ => fixed_column 6 _) fun _ => ⟨le_rfl,le_rfl⟩
  exact absurd (savePerfSamples_fits trips.saved) (by decide)

end Trip

section Ends
open OperatorBase

/-- Where no cache is found, the sampling loop with its stores and the saving loop return,
whatever is measured, and no later deduction divides by zero. -/
structure TrainingEnds (pageBlkUpperBound : Nat) : Prop where
  trained : ∀ (kind : OperatorKind) cache probeCPU probeDPU op loaded, kind.isTrainable = true →
    loadModelCacheIfExist kind cache pageBlkUpperBound op = some (false,loaded) →
      ∃ trained, trainModel kind cache probeCPU probeDPU pageBlkUpperBound op = some trained
  saved : ∀ dataSize src, ∃ file, savePerfSamples dataSize pageBlkUpperBound src = some file
  divides : ∀ pageBlkCnt < 2^32, deduceSlots pageBlkUpperBound pageBlkCnt ≠ none

/-- There has to be a step, the counter has to pass the bound before it wraps around, and the
steps must not outnumber the slots. -/
theorem trainingEnds_iff (pageBlkUpperBound : Nat) : TrainingEnds pageBlkUpperBound ↔
    15 ≤ pageBlkUpperBound ∧ pageBlkUpperBound / (pageBlkUpperBound / 15) ≤ 16 ∧
      (pageBlkUpperBound / (pageBlkUpperBound / 15) + 1) * (pageBlkUpperBound / 15) < 2^32 := by
  constructor
  · intro ends
    obtain ⟨file,saved⟩ := ends.saved (fun _ => []) fun _ => 0
    obtain ⟨points,visited⟩ := savePerfSamples_points saved
    exact (trainingPoints_iff.mp visited).1
  · intro ranged
    obtain ⟨large,few,fits⟩ := ranged
    refine ⟨?_,fun dataSize src => ⟨_,savePerfSamples_eq large few fits src⟩,?_⟩
    · intro kind cache probeCPU probeDPU op loaded trainable uncached
      have slots : ((List.range (pageBlkUpperBound / (pageBlkUpperBound / 15) + 1)).map
          (· * (pageBlkUpperBound / 15))).length ≤ perfSamplePoint + 1 := by
        rw [List.length_map,List.length_range]
        exact Nat.succ_le_succ few
      obtain ⟨sampled,looped⟩ := exists_trained slots kind probeCPU probeDPU loaded
      have visited := trainingPoints_iff.mpr ⟨⟨large,few,fits⟩,rfl⟩
      simp only [trainModel,uncached,Option.bind_some,trainable,and_self,if_true,visited,looped]
      exact ⟨_,rfl⟩
    · intro pageBlkCnt _ divided
      obtain ⟨-,-,still⟩ := deduceSlots_eq_none.mp divided
      omega

/-- A workload of 100 MiB is eleven blocks, less than there are intervals. -/
theorem training_not_ending : ¬ ∀ task : RegressionTask, TrainingEnds task.maxBlk := by
  intro always
  let task : RegressionTask := fun opTag => if opTag = .MAC then some 100 else none
  have small : task.maxBlk = 11 := by decide
  obtain ⟨file,saved⟩ := (always task).saved (fun _ => []) fun _ => 0
  obtain ⟨points,visited⟩ := savePerfSamples_points saved
  rw [small] at visited
  exact absurd (trainingPoints_iff.mp visited).1.1 (by decide)

end Ends
end MetaPB.Operator
