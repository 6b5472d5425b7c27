import MetaPB.Lib.Transition
import MetaPB.Operator.ModelCacheFile

/-! The cache directory over many trainings. A training looks for the files of its operator and
bound, and writes them when it had to probe, so the directory is a store that is written once a
key: whatever trains later under the key, on whichever operator object, gets the samples of the
first training as six decimals keep them. -/
namespace MetaPB.Operator
open Utils Lib.Decimal Lib.Delimited Lib.Loop Lib.Word Lib.Transition

/-- Files by path, and whether their directory is there at all. -/
structure Disk where
  files : List Char → Option (List Char) := fun _ => none
  directory : Bool := true

/-- An output stream on a path; without the directory nothing is written. -/
def Disk.write (disk : Disk) (path text : List Char) : Disk :=
  if disk.directory then { disk with files := Function.update disk.files path (some text) } else disk

/-- What one call of `trainModel` gets: the operator's name, whether the manager just made a new
object for it, the bound, and what probes would measure. -/
structure Training where
  getName : List Char
  renewed : Bool
  pageBlkUpperBound : Nat
  probe : Side → Nat → PerfStats

/-- The operator objects by name, and the disk. -/
structure Workshop where
  opMap : List Char → OperatorBase := fun _ => {}
  disk : Disk := {}

def modelPathPrefix : List Char := "/tmp/MetaPB/perfModel/".toList

/-- How sizes of workloads are written into names of files and into rows. -/
structure Texts where
  bound : Nat → List Char
  row : Nat → List Char

/-- Texts that hold none of the marks around them. -/
structure Texts.Plain (texts : Texts) : Prop where
  bound : ∀ size, '_' ∉ texts.bound size
  row : ∀ size, ',' ∉ texts.row size ∧ '\n' ∉ texts.row size

namespace Training
variable (texts : Texts)

/-- What ends the name of every file. -/
def sampleEnding : List Char :=
  "_MiB_".toList ++ Nat.toDigits 10 perfSamplePoint ++ "_sample.csv".toList

def modelTagPostfix (t : Training) : List Char :=
  t.getName ++ '_'::(texts.bound t.pageBlkUpperBound ++ sampleEnding)

/-- `CPUPerfSamplePath` and `DPUPerfSamplePath`. -/
def samplePath (key : List Char) : Side → List Char
  | .cpu => modelPathPrefix ++ ("CPUPerfSamples_".toList ++ key)
  | .dpu => modelPathPrefix ++ ("DPUPerfSamples_".toList ++ key)

def loadModelCacheIfExist (kind : OperatorKind) (disk : Disk) (t : Training) (op : OperatorBase) :
    Option (Bool × OperatorBase) :=
  if kind.isTrainable then
    match disk.files (samplePath (t.modelTagPostfix texts) .cpu) with
    | none => some (false,op)
    | some cpuFile => (OperatorBase.loadPerfSamplesFile op.cpuPerfSamples cpuFile).bind fun cpu =>
      let op := { op with cpuPerfSamples := cpu }
      if kind.isCPUOnly then some (true,{ op with deducePageBlkUpperBound := t.pageBlkUpperBound })
      else
        match disk.files (samplePath (t.modelTagPostfix texts) .dpu) with
        | none => some (false,op)
        | some dpuFile => (OperatorBase.loadPerfSamplesFile op.dpuPerfSamples dpuFile).map fun dpu =>
          (true,{ op with dpuPerfSamples := dpu, deducePageBlkUpperBound := t.pageBlkUpperBound })
  else some (true,{ op with deducePageBlkUpperBound := t.pageBlkUpperBound })

/-- `trainModel`, on the operator and the disk. -/
def trainModel (kind : OperatorKind) (disk : Disk) (t : Training) (op : OperatorBase) :
    Option (OperatorBase × Disk) := do
  let (loaded,op) ← loadModelCacheIfExist texts kind disk t op
  if loaded = false ∧ kind.isTrainable then
    let points ← OperatorBase.trainingPoints t.pageBlkUpperBound
    let op ← points.zipIdx.foldlM (OperatorBase.train kind (t.probe .cpu) (t.probe .dpu)) op
    let op := { op with deducePageBlkUpperBound := t.pageBlkUpperBound }
    let cpuFile ← OperatorBase.savePerfSamples texts.row t.pageBlkUpperBound op.cpuPerfSamples
    let dpuFile ← OperatorBase.savePerfSamples texts.row t.pageBlkUpperBound op.dpuPerfSamples
    return (op,(disk.write (samplePath (t.modelTagPostfix texts) .cpu) cpuFile).write
      (samplePath (t.modelTagPostfix texts) .dpu) dpuFile)
  else return (op,disk)

def step (kindOf : List Char → OperatorKind) (w : Workshop) (t : Training) : Option Workshop :=
  (trainModel texts (kindOf t.getName) w.disk t (if t.renewed then {} else w.opMap t.getName)).map
    fun (op,disk) => ⟨Function.update w.opMap t.getName op,disk⟩

/-- The rows that a training finds in the files of its key. -/
def modelCache (disk : Disk) (t : Training) : ModelCache where
  cpuRows := (disk.files (samplePath (t.modelTagPostfix texts) .cpu)).bind fun file =>
    (lines file).tail.mapM OperatorBase.parseRow
  dpuRows := (disk.files (samplePath (t.modelTagPostfix texts) .dpu)).bind fun file =>
    (lines file).tail.mapM OperatorBase.parseRow

/-- The first training that would have written under a key. -/
def firstAt (kindOf : List Char → OperatorKind) (history : List Training) (key : List Char) :
    Option Training :=
  history.find? fun t => (kindOf t.getName).isTrainable ∧ t.modelTagPostfix texts = key

/-- Samples of a training: one a step, from none up to the bound. -/
def rows (t : Training) : Nat := t.pageBlkUpperBound / (t.pageBlkUpperBound / 15) + 1

def measured (t : Training) (side : Side) (slot : Nat) : PerfStats :=
  t.probe side (slot * (t.pageBlkUpperBound / 15))

/-- The file a training writes. -/
def perfSampleFile (t : Training) (side : Side) : List Char :=
  sampleFile (fun slot => texts.row (slot * (t.pageBlkUpperBound / 15))) (t.measured side) t.rows

/-- What a training after this history finds or measures for a slot. -/
def obtained (kindOf : List Char → OperatorKind) (history : List Training) (t : Training) (side : Side)
    (slot : Nat) : PerfStats :=
  match firstAt texts kindOf history (t.modelTagPostfix texts) with
  | none => t.measured side slot
  | some first => printed (first.measured side slot)

variable {texts} {kindOf : List Char → OperatorKind} {history : List Training} {disk after : Disk}
  {t first : Training} {op trained : OperatorBase}

/-- A bound whose training loop ends within the arrays. -/
structure Sampled (t : Training) : Prop where
  large : 15 ≤ t.pageBlkUpperBound
  few : t.rows ≤ perfSamplePoint + 1
  fits : t.rows * (t.pageBlkUpperBound / 15) < 2^32

section Rows

theorem loadModelCacheIfExist_rows {kind : OperatorKind} {loaded : Bool}
    (looked : loadModelCacheIfExist texts kind disk t op = some (loaded,trained)) :
    OperatorBase.loadModelCacheIfExist kind (modelCache texts disk t) t.pageBlkUpperBound op =
      some (loaded,trained) := by
  unfold loadModelCacheIfExist at looked
  unfold OperatorBase.loadModelCacheIfExist modelCache
  split at looked
  next trainable =>
    rw [if_pos trainable]
    cases cpuFile : disk.files (samplePath (t.modelTagPostfix texts) .cpu) with
    | none =>
      rw [cpuFile] at looked
      exact looked
    | some file =>
      rw [cpuFile] at looked
      obtain ⟨cpu,read,looked⟩ := Option.bind_eq_some_iff.mp looked
      obtain ⟨rows,parsed,stored⟩ := Option.bind_eq_some_iff.mp read
      simp only [Option.bind_some,parsed,stored]
      split at looked
      next only =>
        rw [if_pos only]
        exact looked
      next dual =>
        rw [if_neg dual]
        cases dpuFile : disk.files (samplePath (t.modelTagPostfix texts) .dpu) with
        | none =>
          rw [dpuFile] at looked
          exact looked
        | some file =>
          rw [dpuFile] at looked
          obtain ⟨dpu,read,looked⟩ := Option.map_eq_some_iff.mp looked
          obtain ⟨rows,parsed,stored⟩ := Option.bind_eq_some_iff.mp read
          simp only [Option.bind_some,parsed,stored,Option.map_some]
          exact congrArg some looked
  next untrained =>
    rw [if_neg untrained]
    exact looked

/-- Apart from the files it writes, a training is that of an operator with the rows it finds. -/
theorem trainModel_rows {kind : OperatorKind} (ran : trainModel texts kind disk t op = some (trained,after)) :
    OperatorBase.trainModel kind (modelCache texts disk t) (t.probe .cpu) (t.probe .dpu)
      t.pageBlkUpperBound op = some trained := by
  obtain ⟨⟨loaded,looked⟩,load,rest⟩ := Option.bind_eq_some_iff.mp ran
  rw [OperatorBase.trainModel,loadModelCacheIfExist_rows load,Option.bind_some]
  dsimp only at rest ⊢
  split at rest
  next probing =>
    rw [if_pos probing]
    simp only [Option.bind_eq_bind,Option.bind_eq_some_iff] at rest
    obtain ⟨points,visited,probed,looped,cpuText,-,dpuText,-,same⟩ := rest
    obtain ⟨rfl,-⟩ := Prod.mk.inj (Option.some.inj same)
    rw [visited,Option.bind_some,looped,Option.map_some]
  next cached =>
    rw [if_neg cached]
    exact congrArg some (Prod.mk.inj (Option.some.inj rest)).1

end Rows

section Keys

theorem samplePath_inj {key other : List Char} {side back : Side}
    (same : samplePath key side = samplePath other back) : side = back ∧ key = other := by
  have apart (left right : List Char) :
      "CPUPerfSamples_".toList ++ left ≠ "DPUPerfSamples_".toList ++ right := by
    intro equal
    simp at equal
  cases side <;> cases back <;> simp only [samplePath] at same
  · exact ⟨rfl,List.append_cancel_left (List.append_cancel_left same)⟩
  · exact absurd (List.append_cancel_left same) (apart key other)
  · exact absurd (List.append_cancel_left same).symm (apart other key)
  · exact ⟨rfl,List.append_cancel_left (List.append_cancel_left same)⟩

theorem getName_of_key (plain : texts.Plain) (same : first.modelTagPostfix texts = t.modelTagPostfix texts) :
    first.getName = t.getName := by
  have reshape (s : Training) : s.modelTagPostfix texts =
      (s.getName ++ '_'::texts.bound s.pageBlkUpperBound) ++ sampleEnding := by
    rw [modelTagPostfix,List.append_assoc,List.cons_append]
  rw [reshape first,reshape t] at same
  have short := List.append_cancel_right same
  have cut := append_delimiter_inj (plain.bound first.pageBlkUpperBound) (plain.bound t.pageBlkUpperBound) short
  exact cut.1

theorem firstAt_key {key : List Char} (found : firstAt texts kindOf history key = some first) :
    (kindOf first.getName).isTrainable = true ∧ first.modelTagPostfix texts = key := by
  simpa [firstAt] using List.find?_some found

theorem firstAt_snoc (history : List Training) (t : Training) (key : List Char) :
    firstAt texts kindOf (history ++ [t]) key = (firstAt texts kindOf history key).or
      (if (kindOf t.getName).isTrainable ∧ t.modelTagPostfix texts = key then some t else none) := by
  rw [firstAt,List.find?_append,List.find?_singleton]
  simp [firstAt]

end Keys

section Sampling

theorem sampled_of_points {points : List Nat}
    (visited : OperatorBase.trainingPoints t.pageBlkUpperBound = some points) :
    Sampled t ∧ points = (List.range t.rows).map (· * (t.pageBlkUpperBound / 15)) := by
  obtain ⟨⟨large,few,fits⟩,listed⟩ := trainingPoints_iff.mp visited
  exact ⟨⟨large,Nat.succ_le_succ few,fits⟩,listed⟩

theorem trainingPoints_sampled (sampled : Sampled t) : OperatorBase.trainingPoints t.pageBlkUpperBound =
    some ((List.range t.rows).map (· * (t.pageBlkUpperBound / 15))) :=
  trainingPoints_iff.mpr ⟨⟨sampled.large,Nat.le_of_succ_le_succ sampled.few,sampled.fits⟩,rfl⟩

theorem sampleFile_congr {dataSize : Nat → List Char} {count : Nat} {samples others : Nat → PerfStats}
    (same : ∀ k < count, samples k = others k) :
    sampleFile dataSize samples count = sampleFile dataSize others count := by
  have listed : (List.range count).map (fun k => OperatorBase.sampleRow (dataSize k) (samples k)) =
      (List.range count).map fun k => OperatorBase.sampleRow (dataSize k) (others k) := by
    apply List.map_congr_left
    intro k member
    rw [same k (List.mem_range.mp member)]
  rw [sampleFile,listed,sampleFile]

theorem savePerfSamples_sampled (sampled : Sampled t) {samples : PerfSamples} {side : Side}
    (held : ∀ i : Fin (perfSamplePoint + 1), i.val < t.rows → samples i = t.measured side i) :
    OperatorBase.savePerfSamples texts.row t.pageBlkUpperBound samples =
      some (perfSampleFile texts t side) := by
  rw [savePerfSamples_eq sampled.large (Nat.le_of_succ_le_succ sampled.few) sampled.fits]
  refine congrArg some (sampleFile_congr fun k inside => ?_)
  have slot : k < perfSamplePoint + 1 := inside.trans_le sampled.few
  exact (sampleAt_val samples ⟨k,slot⟩).trans (held ⟨k,slot⟩ inside)

theorem loadPerfSamplesFile_sampled (plain : texts.Plain) (sampled : Sampled t) (side : Side)
    (dst : PerfSamples) : ∃ loaded,
      OperatorBase.loadPerfSamplesFile dst (perfSampleFile texts t side) = some loaded ∧
        ∀ i, loaded i = if i.val < t.rows then printed (t.measured side i) else dst i :=
  loadPerfSamplesFile_sampleFile (Nat.succ_pos _) sampled.few (fun _ => plain.row _) dst

end Sampling

/-- The directory holds the files of the first training under every key. -/
structure Kept (texts : Texts) (kindOf : List Char → OperatorKind) (history : List Training) (disk : Disk) :
    Prop where
  directory : disk.directory = true
  sampled : ∀ key first, firstAt texts kindOf history key = some first → Sampled first
  cpu : ∀ key, disk.files (samplePath key .cpu) =
    (firstAt texts kindOf history key).map (perfSampleFile texts · .cpu)
  dpu : ∀ key first, firstAt texts kindOf history key = some first →
    (kindOf first.getName).isCPUOnly = false →
      disk.files (samplePath key .dpu) = some (perfSampleFile texts first .dpu)

/-- How many slots a training after this history fills. -/
def filled (texts : Texts) (kindOf : List Char → OperatorKind) (history : List Training)
    (t : Training) : Nat :=
  ((firstAt texts kindOf history (t.modelTagPostfix texts)).getD t).rows

/-- The operator has what a training after this history obtains. -/
structure Obtains (texts : Texts) (kindOf : List Char → OperatorKind) (history : List Training) (t : Training)
    (trained : OperatorBase) : Prop where
  bound : trained.deducePageBlkUpperBound = t.pageBlkUpperBound
  cpu : (kindOf t.getName).isTrainable = true → ∀ i, i.val < filled texts kindOf history t →
    trained.cpuPerfSamples i = t.obtained texts kindOf history .cpu i
  dpu : (kindOf t.getName).isTrainable = true → (kindOf t.getName).isCPUOnly = false →
    ∀ i, i.val < filled texts kindOf history t →
      trained.dpuPerfSamples i = t.obtained texts kindOf history .dpu i

section Keeping

theorem Kept.again (kept : Kept texts kindOf history disk)
    (found : (kindOf t.getName).isTrainable = true →
      ∃ first, firstAt texts kindOf history (t.modelTagPostfix texts) = some first) :
    Kept texts kindOf (history ++ [t]) disk := by
  have same (key : List Char) :
      firstAt texts kindOf (history ++ [t]) key = firstAt texts kindOf history key := by
    rw [firstAt_snoc]
    split
    next own =>
      obtain ⟨trainable,rfl⟩ := own
      obtain ⟨first,earlier⟩ := found trainable
      rw [earlier]
      rfl
    next => exact Option.or_none
  constructor
  · exact kept.directory
  · intro key
    rw [same]
    exact kept.sampled key
  · intro key
    rw [same]
    exact kept.cpu key
  · intro key first
    rw [same]
    exact kept.dpu key first

theorem Kept.wrote (kept : Kept texts kindOf history disk) (sampled : Sampled t)
    (fresh : firstAt texts kindOf history (t.modelTagPostfix texts) = none)
    (trainable : (kindOf t.getName).isTrainable = true) (dpuFile : List Char)
    (own : (kindOf t.getName).isCPUOnly = false → dpuFile = perfSampleFile texts t .dpu) :
    Kept texts kindOf (history ++ [t])
      ((disk.write (samplePath (t.modelTagPostfix texts) .cpu) (perfSampleFile texts t .cpu)).write
        (samplePath (t.modelTagPostfix texts) .dpu) dpuFile) := by
  have written (path : List Char) : ((disk.write (samplePath (t.modelTagPostfix texts) .cpu)
      (perfSampleFile texts t .cpu)).write (samplePath (t.modelTagPostfix texts) .dpu) dpuFile).files path =
        if path = samplePath (t.modelTagPostfix texts) .dpu then some dpuFile
        else if path = samplePath (t.modelTagPostfix texts) .cpu then some (perfSampleFile texts t .cpu)
        else disk.files path := by
    simp [Disk.write,kept.directory,Function.update_apply]
  have mine : firstAt texts kindOf (history ++ [t]) (t.modelTagPostfix texts) = some t := by
    rw [firstAt_snoc,fresh,if_pos ⟨trainable,rfl⟩]
    rfl
  have others {key : List Char} (apart : key ≠ t.modelTagPostfix texts) :
      firstAt texts kindOf (history ++ [t]) key = firstAt texts kindOf history key := by
    rw [firstAt_snoc,if_neg fun both => apart both.2.symm,Option.or_none]
  have sides (key other : List Char) : samplePath key .cpu ≠ samplePath other .dpu :=
    fun same => Side.noConfusion (samplePath_inj same).1
  constructor
  · simp [Disk.write,kept.directory]
  · intro key first found
    rcases eq_or_ne key (t.modelTagPostfix texts) with rfl | apart
    · cases Option.some.inj (mine.symm.trans found)
      exact sampled
    · exact kept.sampled key first (others apart ▸ found)
  · intro key
    rw [written,if_neg (sides _ _)]
    rcases eq_or_ne key (t.modelTagPostfix texts) with rfl | apart
    · rw [if_pos rfl,mine]
      rfl
    · rw [if_neg fun same => apart (samplePath_inj same).2,others apart]
      exact kept.cpu key
  · intro key first found dual
    rw [written]
    rcases eq_or_ne key (t.modelTagPostfix texts) with rfl | apart
    · cases Option.some.inj (mine.symm.trans found)
      rw [if_pos rfl,own dual]
    · rw [if_neg fun same => apart (samplePath_inj same).2,if_neg fun same => sides _ _ same.symm]
      exact kept.dpu key first (others apart ▸ found) dual

theorem Kept.load (kept : Kept texts kindOf history disk) (plain : texts.Plain)
    (trainable : (kindOf t.getName).isTrainable = true)
    (found : firstAt texts kindOf history (t.modelTagPostfix texts) = some first) (op : OperatorBase) :
    ∃ trained, loadModelCacheIfExist texts (kindOf t.getName) disk t op = some (true,trained) ∧
      Obtains texts kindOf history t trained := by
  have sampled := kept.sampled _ _ found
  have named := getName_of_key plain (firstAt_key found).2
  have count : filled texts kindOf history t = first.rows := by
    rw [filled,found]
    rfl
  have value (side : Side) (slot : Nat) : t.obtained texts kindOf history side slot =
      printed (first.measured side slot) := by
    rw [obtained,found]
  obtain ⟨cpu,cpuRead,cpuSlots⟩ := loadPerfSamplesFile_sampled plain sampled .cpu op.cpuPerfSamples
  have cpuFile := kept.cpu (t.modelTagPostfix texts)
  rw [found,Option.map_some] at cpuFile
  simp only [loadModelCacheIfExist,trainable,if_true,cpuFile,cpuRead,Option.bind_some]
  rcases only : (kindOf t.getName).isCPUOnly with _ | _
  · obtain ⟨dpu,dpuRead,dpuSlots⟩ := loadPerfSamplesFile_sampled plain sampled .dpu op.dpuPerfSamples
    have dpuFile := kept.dpu _ _ found (named ▸ only)
    simp only [dpuFile,dpuRead,Option.map_some,Bool.false_eq_true,if_false]
    refine ⟨_,rfl,rfl,?_,?_⟩
    · intro _ i inside
      rw [value]
      exact (cpuSlots i).trans (if_pos (count ▸ inside))
    · intro _ _ i inside
      rw [value]
      exact (dpuSlots i).trans (if_pos (count ▸ inside))
  · simp only [if_true]
    refine ⟨_,rfl,rfl,?_,?_⟩
    · intro _ i inside
      rw [value]
      exact (cpuSlots i).trans (if_pos (count ▸ inside))
    · intro _ dual
      rw [only] at dual
      contradiction

theorem Kept.probe (kept : Kept texts kindOf history disk)
    (trainable : (kindOf t.getName).isTrainable = true)
    (fresh : firstAt texts kindOf history (t.modelTagPostfix texts) = none)
    (ran : trainModel texts (kindOf t.getName) disk t op = some (trained,after)) :
    Kept texts kindOf (history ++ [t]) after ∧ Obtains texts kindOf history t trained := by
  have cpuFile := kept.cpu (t.modelTagPostfix texts)
  rw [fresh,Option.map_none] at cpuFile
  have missed : loadModelCacheIfExist texts (kindOf t.getName) disk t op = some (false,op) := by
    simp only [loadModelCacheIfExist,trainable,if_true,cpuFile]
  simp only [trainModel,missed,trainable,and_self,if_true,Option.bind_eq_bind,Option.bind_some,
    Option.bind_eq_some_iff] at ran
  obtain ⟨points,visited,probed,looped,cpuText,cpuSaved,dpuText,dpuSaved,same⟩ := ran
  obtain ⟨rfl,rfl⟩ := Prod.mk.inj (Option.some.inj same)
  obtain ⟨sampled,rfl⟩ := sampled_of_points visited
  obtain ⟨cpu,dpu⟩ := train_spec (· * (t.pageBlkUpperBound / 15)) t.rows looped
  have cpuHeld (i : Fin (perfSamplePoint + 1)) (inside : i.val < t.rows) :
      probed.cpuPerfSamples i = t.measured .cpu i := (cpu i).trans (if_pos inside)
  have dpuHeld (dual : (kindOf t.getName).isCPUOnly = false) (i : Fin (perfSamplePoint + 1))
      (inside : i.val < t.rows) : probed.dpuPerfSamples i = t.measured .dpu i :=
    (dpu dual i).trans (if_pos inside)
  have count : filled texts kindOf history t = t.rows := by
    rw [filled,fresh]
    rfl
  have value (side : Side) (slot : Nat) :
      t.obtained texts kindOf history side slot = t.measured side slot := by
    rw [obtained,fresh]
  constructor
  · rw [savePerfSamples_sampled sampled cpuHeld] at cpuSaved
    cases Option.some.inj cpuSaved
    apply kept.wrote sampled fresh trainable
    intro dual
    rw [savePerfSamples_sampled sampled (dpuHeld dual)] at dpuSaved
    exact (Option.some.inj dpuSaved).symm
  · refine ⟨rfl,?_,?_⟩
    · intro _ i inside
      rw [value]
      exact cpuHeld i (count ▸ inside)
    · intro _ dual i inside
      rw [value]
      exact dpuHeld dual i (count ▸ inside)

/-- A training goes through exactly where its key has files, its operator is not trained, or its
loop ends within the arrays. -/
theorem Kept.trainModel_returns_iff (kept : Kept texts kindOf history disk) (plain : texts.Plain)
    (t : Training) (op : OperatorBase) :
    (∃ result, trainModel texts (kindOf t.getName) disk t op = some result) ↔
      ((kindOf t.getName).isTrainable = true →
        firstAt texts kindOf history (t.modelTagPostfix texts) = none → Sampled t) := by
  rcases trainable : (kindOf t.getName).isTrainable with _ | _
  · have loaded : loadModelCacheIfExist texts (kindOf t.getName) disk t op =
        some (true,{ op with deducePageBlkUpperBound := t.pageBlkUpperBound }) := by
      simp only [loadModelCacheIfExist,trainable,Bool.false_eq_true,if_false]
    simp [trainModel,loaded]
  · cases found : firstAt texts kindOf history (t.modelTagPostfix texts) with
    | some first =>
      obtain ⟨loaded,read,-⟩ := kept.load plain trainable found op
      simp [trainModel,read]
    | none =>
      have cpuFile := kept.cpu (t.modelTagPostfix texts)
      rw [found,Option.map_none] at cpuFile
      have missed : loadModelCacheIfExist texts (kindOf t.getName) disk t op = some (false,op) := by
        simp only [loadModelCacheIfExist,trainable,if_true,cpuFile]
      simp only [trainModel,missed,trainable,and_self,if_true,Option.bind_eq_bind,Option.bind_some,
        true_implies]
      constructor
      · intro trains
        obtain ⟨result,ran⟩ := trains
        obtain ⟨points,visited,-⟩ := Option.bind_eq_some_iff.mp ran
        exact (sampled_of_points visited).1
      · intro sampled
        have slots : ((List.range t.rows).map (· * (t.pageBlkUpperBound / 15))).length ≤ perfSamplePoint + 1 := by
          rw [List.length_map,List.length_range]
          exact sampled.few
        obtain ⟨probed,looped⟩ := exists_trained slots (kindOf t.getName) (t.probe .cpu) (t.probe .dpu) op
        have saved (samples : PerfSamples) : ∃ file,
            OperatorBase.savePerfSamples texts.row t.pageBlkUpperBound samples = some file :=
          ⟨_,savePerfSamples_eq sampled.large (Nat.le_of_succ_le_succ sampled.few) sampled.fits samples⟩
        obtain ⟨cpuText,cpuSaved⟩ := saved probed.cpuPerfSamples
        obtain ⟨dpuText,dpuSaved⟩ := saved probed.dpuPerfSamples
        simp only [trainingPoints_sampled sampled,looped,cpuSaved,dpuSaved,Option.bind_some]
        exact ⟨_,rfl⟩

theorem Kept.trainModel (kept : Kept texts kindOf history disk) (plain : texts.Plain)
    (ran : trainModel texts (kindOf t.getName) disk t op = some (trained,after)) :
    Kept texts kindOf (history ++ [t]) after ∧ Obtains texts kindOf history t trained := by
  rcases trainable : (kindOf t.getName).isTrainable with _ | _
  · have loaded : loadModelCacheIfExist texts (kindOf t.getName) disk t op =
        some (true,{ op with deducePageBlkUpperBound := t.pageBlkUpperBound }) := by
      simp only [loadModelCacheIfExist,trainable,Bool.false_eq_true,if_false]
    simp only [Training.trainModel,loaded,Option.bind_eq_bind,Option.bind_some,Bool.true_eq_false,false_and,
      if_false] at ran
    obtain ⟨rfl,rfl⟩ := Prod.mk.inj (Option.some.inj ran)
    exact ⟨kept.again (by simp [trainable]),rfl,by simp [trainable],by simp [trainable]⟩
  · cases found : firstAt texts kindOf history (t.modelTagPostfix texts) with
    | none => exact kept.probe trainable found ran
    | some first =>
      obtain ⟨loaded,read,obtains⟩ := kept.load plain trainable found op
      simp only [Training.trainModel,read,Option.bind_eq_bind,Option.bind_some,Bool.true_eq_false,false_and,
        if_false] at ran
      obtain ⟨rfl,rfl⟩ := Prod.mk.inj (Option.some.inj ran)
      exact ⟨kept.again fun _ => ⟨first,found⟩,obtains⟩

end Keeping
section Runs
variable {w : Workshop} {opMap : List Char → OperatorBase}

theorem run_kept (plain : texts.Plain)
    (ran : run (step texts kindOf) { opMap := opMap } history = some w) : Kept texts kindOf history w.disk := by
  apply run_history (fun history w => Kept texts kindOf history w.disk) _ _ history w ran
  · exact ⟨rfl,by simp [firstAt],fun _ => rfl,by simp [firstAt]⟩
  · intro history w t next _ kept stepped
    obtain ⟨result,trains,rfl⟩ := Option.map_eq_some_iff.mp stepped
    exact (kept.trainModel plain trains).1

theorem step_returns_iff (kept : Kept texts kindOf history w.disk) (plain : texts.Plain) (t : Training) :
    (∃ next, step texts kindOf w t = some next) ↔ ((kindOf t.getName).isTrainable = true →
      firstAt texts kindOf history (t.modelTagPostfix texts) = none → Sampled t) := by
  rw [← kept.trainModel_returns_iff plain t (if t.renewed then {} else w.opMap t.getName)]
  constructor
  · intro found
    obtain ⟨next,stepped⟩ := found
    obtain ⟨result,trains,-⟩ := Option.map_eq_some_iff.mp stepped
    exact ⟨result,trains⟩
  · intro found
    obtain ⟨result,trains⟩ := found
    exact ⟨_,Option.map_eq_some_iff.mpr ⟨result,trains,rfl⟩⟩

/-- From an empty cache directory on, over any trainings of any operators: the first training of a
key needs a loop that ends within the arrays and keeps what it measured; every later one goes
through and gets that as six decimals keep it, whatever object it trains and whatever it would
measure itself; and the files stay those of the first. -/
theorem run_writes_once (plain : texts.Plain)
    (ran : run (step texts kindOf) { opMap := opMap } history = some w) :
    (∀ t, (∃ next, step texts kindOf w t = some next) ↔ ((kindOf t.getName).isTrainable = true →
      firstAt texts kindOf history (t.modelTagPostfix texts) = none → Sampled t)) ∧
    (∀ t next, step texts kindOf w t = some next →
      Obtains texts kindOf history t (next.opMap t.getName)) ∧
    (∀ key, w.disk.files (samplePath key .cpu) =
      (firstAt texts kindOf history key).map (perfSampleFile texts · .cpu)) ∧
    ∀ key first, firstAt texts kindOf history key = some first →
      (kindOf first.getName).isCPUOnly = false →
        w.disk.files (samplePath key .dpu) = some (perfSampleFile texts first .dpu) := by
  have kept := run_kept plain ran
  refine ⟨step_returns_iff kept plain,?_,kept.cpu,kept.dpu⟩
  intro t next stepped
  obtain ⟨result,trains,rfl⟩ := Option.map_eq_some_iff.mp stepped
  simpa using (kept.trainModel plain trains).2

/-- A training of sixteen blocks that measures thirds, and one that would measure nothing. -/
def thirds (renewed : Bool) (timeCostSecond : ℚ) : Training where
  getName := ['M','A','C']
  renewed := renewed
  pageBlkUpperBound := 16
  probe _ _ := { timeCostSecond := timeCostSecond }

theorem plain_sizeText : Texts.Plain ⟨sizeText,sizeText⟩ where
  bound _ := not_mem_fixed (by decide) (by decide) (by decide)
  row _ := fixed_column 6 _

theorem run_writes_once_thirds : ∃ w next,
    run (step ⟨sizeText,sizeText⟩ fun _ => ⟨true,false⟩) {} [thirds false (1/3)] = some w ∧
    step ⟨sizeText,sizeText⟩ (fun _ => ⟨true,false⟩) w (thirds true 7) = some next ∧
    ((next.opMap ['M','A','C']).dpuPerfSamples 16).timeCostSecond = 333333 / 1000000 ∧
    w.disk.files (samplePath ((thirds true 7).modelTagPostfix ⟨sizeText,sizeText⟩) .dpu) =
      some (perfSampleFile ⟨sizeText,sizeText⟩ (thirds false (1/3)) .dpu) := by
  let kindOf : List Char → OperatorKind := fun _ => ⟨true,false⟩
  have sampled : Sampled (thirds false (1/3)) := ⟨by decide,by decide,by decide⟩
  have empty : run (step ⟨sizeText,sizeText⟩ kindOf) { opMap := fun _ => {} } [] = some {} := rfl
  obtain ⟨w,first⟩ := ((run_writes_once plain_sizeText empty).1 (thirds false (1/3))).mpr fun _ _ => sampled
  have ran : run (step ⟨sizeText,sizeText⟩ kindOf) { opMap := fun _ => {} } [thirds false (1/3)] = some w :=
    (run_cons _ _ _ _ _).mpr ⟨w,first,rfl⟩
  have key : (thirds true 7).modelTagPostfix ⟨sizeText,sizeText⟩ =
    (thirds false (1/3)).modelTagPostfix ⟨sizeText,sizeText⟩ := rfl
  have found : firstAt ⟨sizeText,sizeText⟩ kindOf [thirds false (1/3)]
      ((thirds true 7).modelTagPostfix ⟨sizeText,sizeText⟩) = some (thirds false (1/3)) := by
    rw [key]
    simp [firstAt,kindOf]
  obtain ⟨goes,gets,-,written⟩ := run_writes_once plain_sizeText ran
  obtain ⟨next,second⟩ := (goes (thirds true 7)).mpr fun _ fresh =>
    absurd (found.symm.trans fresh) (Option.some_ne_none _)
  refine ⟨w,next,ran,second,?_,written _ _ found rfl⟩
  have slot := (gets _ next second).dpu rfl rfl 16 (by
    rw [filled,found]
    decide)
  rw [obtained,found] at slot
  refine (congrArg PerfStats.timeCostSecond slot).trans ?_
  change rounded 6 (1/3) = 333333 / 1000000
  decide +kernel

end Runs
end Training
end MetaPB.Operator
