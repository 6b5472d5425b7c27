import MetaPB.Operator.Footprint

/-! Programs that move buffers between host and DPUs and compute on either side. The DPUs
hold what the loops of the host would have computed on arrays, wherever every operator
before settled the ints that were used. -/
namespace MetaPB.Operator.Offload
open Lib.Word Lib.BlockMemory Lib.Transition

/-- Buffers are numbered, and host addresses count ints. -/
inductive Command where
  | map (source buffer : Nat)
  | reduce (buffer target : Nat)
  | onHost (opTag : OperatorTag) (src1 src2 dst : Nat)
  | onDpu (opTag : OperatorTag) (src1 src2 dst : Nat)

namespace Command

/-- Each buffer has `n` page blocks. -/
def call (n : Nat) : Command → Call
  | map source buffer => .execCPU .MAP { sgInfo := ⟨4 * source,n * buffer,n⟩ }
  | reduce buffer target => .execCPU .REDUCE { sgInfo := ⟨4 * target,n * buffer,n⟩ }
  | onHost opTag src1 src2 dst => .execCPU opTag ⟨4 * src1,4 * src2,4 * dst,n,{}⟩
  | onDpu opTag src1 src2 dst => .execDPU opTag ⟨n * src1,n * src2,n * dst,n⟩

/-- Operators compute, and from other memory than they write to. -/
def Fits (n buffers : Nat) : Command → Prop
  | map _ buffer | reduce buffer _ => buffer < buffers
  | onHost opTag src1 src2 dst => (cpuBody opTag).isSome ∧
    (src1 + bufferInts n ≤ dst ∨ dst + bufferInts n ≤ src1) ∧
      (src2 + bufferInts n ≤ dst ∨ dst + bufferInts n ≤ src2)
  | onDpu opTag src1 src2 dst => (cpuBody opTag).isSome ∧
    src1 < buffers ∧ src2 < buffers ∧ dst < buffers ∧ src1 ≠ dst ∧ src2 ≠ dst

end Command

/-- The host alone, with an array in place of every buffer. -/
structure Arrays where
  host : Ints
  buffer : Nat → Ints

def Arrays.step (n : Nat) (arrays : Arrays) : Command → Option Arrays
  | .map source buffer => some { arrays with
      buffer := Function.update arrays.buffer buffer (window arrays.host source) }
  | .reduce buffer target => some { arrays with
      host := overwrite arrays.host target (bufferInts n) (arrays.buffer buffer) }
  | .onHost opTag src1 src2 dst => do
    let body ← cpuBody opTag
    let host ← OperatorManager.execBody body ⟨4 * src1,4 * src2,4 * dst,n,{}⟩ arrays.host
    return { arrays with host := host }
  | .onDpu opTag src1 src2 dst => do
    let body ← cpuBody opTag
    let result ← body.exec n (arrays.buffer src1) (arrays.buffer src2) (arrays.buffer dst)
    return { arrays with buffer := Function.update arrays.buffer dst result }

/-- The ints that a computation settles from sure ints of its sources. -/
def settled (opTag : OperatorTag) (src1 src2 : Set Nat) : Set Nat :=
  {x | ∃ f, chunkFunction opTag = some f ∧ f.settled (x % pageItemNum) ∧
    ∀ i < pageItemNum, pageItemNum * (x / pageItemNum) + i ∈ src1 ∩ src2}

/-- The ints that no operator so far has left open. -/
structure Sure where
  host : Set Nat
  buffer : Nat → Set Nat

def Sure.step (n : Nat) (sure : Sure) : Command → Sure
  | .map source buffer => { sure with
      buffer := Function.update sure.buffer buffer {x | source + x ∈ sure.host} }
  | .reduce buffer target => { sure with
      host := {address | if Inside target (bufferInts n) address then address - target ∈ sure.buffer buffer
        else address ∈ sure.host} }
  | .onHost opTag src1 src2 dst => { sure with
      host := {address | if Inside dst (bufferInts n) address then
        address - dst ∈ settled opTag {x | src1 + x ∈ sure.host} {x | src2 + x ∈ sure.host}
        else address ∈ sure.host} }
  | .onDpu opTag src1 src2 dst => { sure with
      buffer := Function.update sure.buffer dst
        {x | x ∈ settled opTag (sure.buffer src1) (sure.buffer src2) ∧ opTag ≠ .EUDIST} }

/-- The DPUs hold the arrays, page by page, as far as they are sure. -/
structure Related (n : Nat) (sure : Sure) (arrays : Arrays) (platform : Platform) : Prop where
  host : Set.EqOn platform.host arrays.host sure.host
  buffer : ∀ k, ∀ x < bufferInts n, x ∈ sure.buffer k → gather (n * k) platform.mram x = arrays.buffer k x

section Values
variable {n : Nat} {opTag : OperatorTag} {f : ChunkFunction}

theorem chunk_inside {x i : Nat} (inside : x < bufferInts n) (within : i < pageItemNum) :
    pageItemNum * (x / pageItemNum) + i < bufferInts n := by
  simp only [bufferInts,dpuNum,pageItemNum,dpuDmaBffrByte] at inside within ⊢
  omega

theorem pages_apart (n : Nat) {k other : Nat} (different : k ≠ other) :
    n * k + n ≤ n * other ∨ n * other + n ≤ n * k := by
  rcases Nat.lt_or_gt_of_ne different with before | behind
  · exact Or.inl (Nat.mul_le_mul_left n before)
  · exact Or.inr (Nat.mul_le_mul_left n behind)

theorem page_low {k buffers : Nat} (fits : n * buffers ≤ nrSingleDpuPage) (below : k < buffers) :
    n * k + n ≤ nrSingleDpuPage := (Nat.mul_le_mul_left n below).trans fits

theorem exec_settled {body : Body} (few : n ≤ 414) (function : chunkFunction opTag = some f)
    (loop : cpuBody opTag = some body) {src1 src2 dst result : Ints}
    (executed : body.exec n src1 src2 dst = some result) {x : Nat} (inside : x < bufferInts n)
    (settles : f.settled (x % pageItemNum)) :
    result x = f.value (window src1 (pageItemNum * (x / pageItemNum)))
      (window src2 (pageItemNum * (x / pageItemNum))) (x % pageItemNum) := by
  obtain ⟨other,same,values⟩ := Body.exec_apply (cpuBody_computes function loop) n src1 src2 dst
  obtain rfl := Option.some.inj (executed.symm.trans same)
  have items : itemNum n = bufferInts n := (itemNum_eq_iff n).mpr few
  have place : pageItemNum * (x / pageItemNum) + x % pageItemNum = x := Nat.div_add_mod _ _
  have value := values (x / pageItemNum) (x % pageItemNum) (Nat.mod_lt _ (by decide)) settles
    (by rw [place,items]; exact inside)
  rwa [place] at value

/-- The same of a launch on every DPU, of the ints that its source pages hold. -/
theorem launch_settled {kernel : Kernel} {src1 src2 dst buffers : Nat} (computes : kernel.Computes f)
    (fits : n * buffers ≤ nrSingleDpuPage) (below : dst < buffers) (apart1 : src1 ≠ dst) (apart2 : src2 ≠ dst)
    {before after : Nat → Ints} (launches : ∀ d < dpuNum, Launch kernel ⟨n * src1,n * src2,n * dst,n⟩
      (before d) (after d)) {x : Nat} (inside : x < bufferInts n) (settles : f.settled (x % pageItemNum)) :
    gather (n * dst) after x = f.value (window (gather (n * src1) before) (pageItemNum * (x / pageItemNum)))
      (window (gather (n * src2) before) (pageItemNum * (x / pageItemNum))) (x % pageItemNum) := by
  obtain ⟨d,dpu,b,block,o,offset,rfl⟩ := split_int inside
  have chunk : (1024 * (b * dpuNum + d) + o) / pageItemNum = 4 * (b * dpuNum + d) + o / pageItemNum := by
    simp only [pageItemNum,dpuDmaBffrByte]
    omega
  have item : (1024 * (b * dpuNum + d) + o) % pageItemNum = o % pageItemNum := by
    simp only [pageItemNum,dpuDmaBffrByte]
    omega
  have quarter : o / pageItemNum < 4 := by
    simp only [pageItemNum,dpuDmaBffrByte]
    omega
  have within : o % pageItemNum < pageItemNum := Nat.mod_lt _ (by decide)
  have few : n ≤ nrSingleDpuPage := by
    have last := page_low fits below
    omega
  have kept : SourcesKept ⟨n * src1,n * src2,n * dst,n⟩ := by
    have first := pages_apart n apart1
    have second := pages_apart n apart2
    constructor <;> intro y short hit <;> obtain ⟨above,under⟩ := hit <;> simp only at short above under
    · omega
    · omega
  rw [item] at settles
  rw [chunk,item]
  have one := launch_apply computes few kept (launches d dpu)
    (by omega : 4 * b + o / pageItemNum < 4 * n) within settles
  have source (k i : Nat) (short : i < pageItemNum) :
      before d (1024 * (n * k) + pageItemNum * (4 * b + o / pageItemNum) + i) =
        gather (n * k) before (pageItemNum * (4 * (b * dpuNum + d) + o / pageItemNum) + i) := by
    have small : pageItemNum * (o / pageItemNum) + i < 1024 := by
      simp only [pageItemNum,dpuDmaBffrByte] at short quarter ⊢
      omega
    rw [chunk_int,gather_eq dpu small,Nat.add_assoc,chunk_int,← Nat.add_assoc,← Nat.mul_add]
  calc gather (n * dst) after (1024 * (b * dpuNum + d) + o)
      = after d (1024 * (n * dst) + pageItemNum * (4 * b + o / pageItemNum) + o % pageItemNum) := by
        rw [gather_eq dpu offset]
        congr 1
        simp only [pageItemNum,dpuDmaBffrByte]
        omega
    _ = _ := one
    _ = _ := by
        apply f.confined _ _ _ _ _ _ _ within
        · exact fun i short => source src1 i short
        · exact fun i short => source src2 i short

theorem value_agrees {src1 src2 : Set Nat} {first1 first2 second1 second2 : Ints}
    (agree1 : ∀ x < bufferInts n, x ∈ src1 → first1 x = second1 x)
    (agree2 : ∀ x < bufferInts n, x ∈ src2 → first2 x = second2 x) {x : Nat} (inside : x < bufferInts n)
    (known : ∀ i < pageItemNum, pageItemNum * (x / pageItemNum) + i ∈ src1 ∩ src2) :
    f.value (window first1 (pageItemNum * (x / pageItemNum))) (window first2 (pageItemNum * (x / pageItemNum)))
        (x % pageItemNum) =
      f.value (window second1 (pageItemNum * (x / pageItemNum)))
        (window second2 (pageItemNum * (x / pageItemNum))) (x % pageItemNum) := by
  apply f.confined _ _ _ _ _ _ _ (Nat.mod_lt _ (by decide))
  · intro i within
    obtain ⟨one,-⟩ := known i within
    exact agree1 _ (chunk_inside inside within) one
  · intro i within
    obtain ⟨-,two⟩ := known i within
    exact agree2 _ (chunk_inside inside within) two

end Values

section Steps
variable {n buffers : Nat} {sure : Sure} {arrays : Arrays} {before after : Platform}

theorem map_related (few : n ≤ 414) (fits : n * buffers ≤ nrSingleDpuPage) {source k : Nat} (below : k < buffers)
    (related : Related n sure arrays before) (does : ((Command.map source k).call n).Does before after) :
    ∃ next, arrays.step n (.map source k) = some next ∧ Related n (sure.step n (.map source k)) next after := by
  obtain rfl := Call.does_map.mp does
  have low : n * k < 2^20 := by
    have last := page_low fits below
    simp only [nrSingleDpuPage] at last
    omega
  refine ⟨_,rfl,related.host,?_⟩
  intro other x inside known
  rcases eq_or_ne other k with rfl | different
  · simp only [Sure.step,Function.update_self,Set.mem_ofPred_eq] at known
    simp only [Function.update_self]
    rw [gather_map few low inside,window_apply]
    exact related.host known
  · simp only [Sure.step,Function.update_of_ne different] at known
    simp only [Function.update_of_ne different]
    rw [gather_map_apart few low (pages_apart n different) inside]
    exact related.buffer other x inside known

theorem reduce_related (few : n ≤ 414) (fits : n * buffers ≤ nrSingleDpuPage) {k target : Nat}
    (below : k < buffers) (related : Related n sure arrays before)
    (does : ((Command.reduce k target).call n).Does before after) :
    ∃ next, arrays.step n (.reduce k target) = some next ∧
      Related n (sure.step n (.reduce k target)) next after := by
  obtain rfl := Call.does_reduce.mp does
  have low : n * k < 2^20 := by
    have last := page_low fits below
    simp only [nrSingleDpuPage] at last
    omega
  refine ⟨_,rfl,?_,related.buffer⟩
  simp only
  rw [reduce_eq_overwrite few low]
  exact overwrite_eqOn related.host (related.buffer k)

theorem execBody_eq {body : Body} (few : n ≤ 414) {src1 src2 dst : Nat} {host next : Ints} :
    OperatorManager.execBody body ⟨4 * src1,4 * src2,4 * dst,n,{}⟩ host = some next ↔
      ∃ result, body.exec n (window host src1) (window host src2) (window host dst) = some result ∧
        next = overwrite host dst (bufferInts n) result := by
  have items : itemNum n = bufferInts n := (itemNum_eq_iff n).mpr few
  simp only [OperatorManager.execBody,Nat.mul_div_cancel_left _ (by decide : 0 < 4),Option.map_eq_some_iff]
  apply exists_congr
  intro result
  apply and_congr_right
  intro executed
  have kept (x : Nat) (outside : bufferInts n ≤ x) : result x = host (dst + x) :=
    Body.exec_outside executed (items.trans_le outside)
  rw [splice_eq_overwrite kept,eq_comm]

theorem onHost_related (few : n ≤ 414) {opTag : OperatorTag} {src1 src2 dst : Nat}
    (computing : (cpuBody opTag).isSome) (related : Related n sure arrays before)
    (does : ((Command.onHost opTag src1 src2 dst).call n).Does before after) :
    ∃ next, arrays.step n (.onHost opTag src1 src2 dst) = some next ∧
      Related n (sure.step n (.onHost opTag src1 src2 dst)) next after := by
  obtain ⟨body,loop⟩ := Option.isSome_iff_exists.mp computing
  obtain ⟨_,ran,rfl⟩ := (Call.does_loop loop).mp does
  obtain ⟨result,executed,rfl⟩ := (execBody_eq few).mp ran
  obtain ⟨other,alone⟩ := body.exec_total n (window arrays.host src1) (window arrays.host src2)
    (window arrays.host dst)
  refine ⟨{ arrays with host := overwrite arrays.host dst (bufferInts n) other },?_,?_,related.buffer⟩
  · have host := (execBody_eq few).mpr ⟨other,alone,rfl⟩
    simp only [Arrays.step,loop,host,Option.bind_eq_bind,Option.bind_some]
    rfl
  · refine overwrite_eqOn related.host ?_
    intro x inside known
    obtain ⟨f,function,settles,sources⟩ := known
    rw [exec_settled few function loop executed inside settles,exec_settled few function loop alone inside settles]
    have agree (src : Nat) : ∀ x < bufferInts n, x ∈ {x | src + x ∈ sure.host} →
        window before.host src x = window arrays.host src x := fun _ _ known => related.host known
    exact value_agrees (agree src1) (agree src2) inside sources

theorem onDpu_related (few : n ≤ 414) (fits : n * buffers ≤ nrSingleDpuPage) {opTag : OperatorTag}
    {src1 src2 dst : Nat} (computing : (cpuBody opTag).isSome) (below : dst < buffers) (apart1 : src1 ≠ dst)
    (apart2 : src2 ≠ dst) (related : Related n sure arrays before)
    (does : ((Command.onDpu opTag src1 src2 dst).call n).Does before after) :
    ∃ next, arrays.step n (.onDpu opTag src1 src2 dst) = some next ∧
      Related n (sure.step n (.onDpu opTag src1 src2 dst)) next after := by
  obtain ⟨body,loop⟩ := Option.isSome_iff_exists.mp computing
  obtain ⟨kernel,program⟩ : ∃ kernel, dpuKernel opTag = some kernel := by
    cases opTag <;> cases loop <;> exact ⟨_,rfl⟩
  obtain ⟨host,launches⟩ := (Call.does_launch program).mp does
  obtain ⟨result,executed⟩ := body.exec_total n (arrays.buffer src1) (arrays.buffer src2) (arrays.buffer dst)
  refine ⟨{ arrays with buffer := Function.update arrays.buffer dst result },?_,?_,?_⟩
  · simp only [Arrays.step,loop,executed,Option.bind_eq_bind,Option.bind_some]
    rfl
  · rw [host]
    exact related.host
  · intro k x inside known
    rcases eq_or_ne k dst with rfl | different
    · simp only [Sure.step,Function.update_self,Set.mem_ofPred_eq] at known
      obtain ⟨⟨f,function,settles,sources⟩,writes⟩ := known
      simp only [Function.update_self]
      have computes := dpuKernel_computes function program writes
      rw [launch_settled computes fits below apart1 apart2 launches inside settles,
        exec_settled few function loop executed inside settles]
      exact value_agrees (related.buffer src1) (related.buffer src2) inside sources
    · simp only [Sure.step,Function.update_of_ne different] at known
      simp only [Function.update_of_ne different]
      rw [← related.buffer k x inside known]
      obtain ⟨d,dpu,b,block,o,offset,rfl⟩ := split_int inside
      rw [gather_eq dpu offset,gather_eq dpu offset]
      have last := page_low fits below
      refine launch_untouched program (by simp only; omega) (by simp only; omega) (launches d dpu) ?_
      intro hit
      obtain ⟨above,under⟩ := hit
      simp only at above under
      have apart := pages_apart n different
      omega

theorem step_related (few : n ≤ 414) (fits : n * buffers ≤ nrSingleDpuPage) {command : Command}
    (one : command.Fits n buffers) (related : Related n sure arrays before)
    (does : (command.call n).Does before after) :
    ∃ next, arrays.step n command = some next ∧ Related n (sure.step n command) next after := by
  cases command with
  | map source buffer => exact map_related few fits one related does
  | reduce buffer target => exact reduce_related few fits one related does
  | onHost opTag src1 src2 dst => exact onHost_related few one.1 related does
  | onDpu opTag src1 src2 dst =>
    obtain ⟨computing,-,-,below,apart1,apart2⟩ := one
    exact onDpu_related few fits computing below apart1 apart2 related does

theorem call_low (few : n ≤ 414) (fits : n * buffers ≤ nrSingleDpuPage) {command : Command}
    (one : command.Fits n buffers) : (command.call n).Low := by
  cases command with
  | map source buffer => exact fun _ => ⟨Nat.dvd_mul_right 4 source,few⟩
  | reduce buffer target => exact fun _ => ⟨Nat.dvd_mul_right 4 target,few⟩
  | onHost opTag src1 src2 dst => exact fun _ => ⟨Nat.dvd_zero 4,Nat.zero_le 414⟩
  | onDpu opTag src1 src2 dst => exact (Nat.le_add_left n (n * dst)).trans (page_low fits one.2.2.2.1)

end Steps

/-- Programs of operators that settle whole chunks, on buffers that were written before. -/
def Ready : List Nat → List Command → Prop
  | _,[] => True
  | known,.map _ buffer::rest => Ready (buffer::known) rest
  | known,.reduce buffer _::rest => buffer ∈ known ∧ Ready known rest
  | known,.onHost opTag _ _ _::rest => opTag ∈ [.ELEW_ADD,.ELEW_PROD,.AFFINE,.CONV_1D] ∧ Ready known rest
  | known,.onDpu opTag src1 src2 dst::rest => opTag ∈ [.ELEW_ADD,.ELEW_PROD,.AFFINE,.CONV_1D] ∧
    src1 ∈ known ∧ src2 ∈ known ∧ Ready (dst::known) rest

section Runs
variable {n buffers : Nat}

theorem settled_whole {opTag : OperatorTag} (whole : opTag ∈ [OperatorTag.ELEW_ADD,.ELEW_PROD,.AFFINE,.CONV_1D]) :
    settled opTag Set.univ Set.univ = Set.univ := by
  apply Set.eq_univ_of_forall
  intro x
  simp only [List.mem_cons,List.not_mem_nil,or_false] at whole
  rcases whole with rfl | rfl | rfl | rfl
  all_goals exact ⟨_,rfl,trivial,fun _ _ => ⟨trivial,trivial⟩⟩

theorem ready_sure {known : List Nat} {commands : List Command} (ready : Ready known commands) {sure : Sure}
    (host : sure.host = Set.univ) (written : ∀ k ∈ known, sure.buffer k = Set.univ) :
    (commands.foldl (Sure.step n) sure).host = Set.univ := by
  induction commands generalizing known sure with
  | nil => exact host
  | cons command rest ih =>
    have update (dst : Nat) (ints : Set Nat) (whole : ints = Set.univ) :
        ∀ k ∈ dst::known, Function.update sure.buffer dst ints k = Set.univ := by
      intro k member
      rcases eq_or_ne k dst with rfl | different
      · rw [Function.update_self,whole]
      · rw [Function.update_of_ne different]
        exact written k (List.mem_of_ne_of_mem different member)
    cases command with
    | map source buffer => exact ih ready host (update _ _ (by simp [host]))
    | reduce buffer target =>
      refine ih ready.2 ?_ written
      simp only [Sure.step,host,written buffer ready.1,Set.mem_univ,ite_self]
      rfl
    | onHost opTag src1 src2 dst =>
      refine ih ready.2 ?_ written
      simp only [Sure.step,host,Set.mem_univ,Set.ofPred_true,settled_whole ready.1,ite_self]
    | onDpu opTag src1 src2 dst =>
      obtain ⟨whole,first,second,others⟩ := ready
      refine ih others host (update _ _ ?_)
      rw [written src1 first,written src2 second,settled_whole whole]
      have writes : opTag ≠ .EUDIST := by
        rintro rfl
        simp at whole
      simp [writes]

/-- Every program of MAP, REDUCE and computing calls goes through, in any order of the tasklets of
each launch, and leaves the ints on the host that the host's loops compute on arrays, wherever no
operator left them open: everywhere, if all operators settle whole chunks of written buffers. -/
theorem issued_agrees (unwrapped : n * pageBlkSize < 2^32) (fits : n * buffers ≤ nrSingleDpuPage)
    (commands : List Command) (each : ∀ command ∈ commands, command.Fits n buffers) (platform : Platform)
    (unset : Nat → Ints) :
    (∃ final, Issued platform (commands.map (Command.call n)) final) ∧
      ∀ final, Issued platform (commands.map (Command.call n)) final →
        ∃ arrays, run (Arrays.step n) ⟨platform.host,unset⟩ commands = some arrays ∧
          Set.EqOn final.host arrays.host
            (commands.foldl (Sure.step n) ⟨Set.univ,fun _ => ∅⟩).host ∧
          (Ready [] commands → final.host = arrays.host) := by
  have few : n ≤ 414 := by
    simp only [pageBlkSize,dpuNum,pageSizeByte] at unwrapped
    omega
  constructor
  · apply Runs.exists_of_live
    intro call member before
    obtain ⟨command,listed,rfl⟩ := List.mem_map.mp member
    exact Call.exists_does (call_low few fits (each command listed)) before
  · intro final ran
    have start : Related n ⟨Set.univ,fun _ => ∅⟩ ⟨platform.host,unset⟩ platform :=
      ⟨fun _ _ => rfl,fun _ _ _ impossible => impossible.elim⟩
    obtain ⟨arrays,alone,related⟩ := ran.of_map.simulated (Sure.step n) (Related n)
      (fun command listed _ _ _ _ related does => step_related few fits (each command listed) related does) start
    refine ⟨arrays,alone,related.host,?_⟩
    intro ready
    have all := related.host
    rw [ready_sure ready rfl (by simp)] at all
    exact (Set.eqOn_univ _ _).mp all

/-- A sum that is convolved on the DPUs before it comes back. -/
def pipeline : List Command :=
  [.map 0 0,.map 2590720 1,.onDpu .ELEW_ADD 0 1 2,.onDpu .CONV_1D 2 2 3,.reduce 3 5181440]

theorem issued_agrees_pipeline :
    (∃ final, Issued ⟨BitVec.ofNat 32,fun _ _ => 0⟩ (pipeline.map (Command.call 1)) final) ∧
      ∀ final, Issued ⟨BitVec.ofNat 32,fun _ _ => 0⟩ (pipeline.map (Command.call 1)) final →
        ∃ arrays, run (Arrays.step 1) ⟨BitVec.ofNat 32,fun _ _ => 1⟩ pipeline = some arrays ∧
          final.host = arrays.host := by
  obtain ⟨goes,agrees⟩ := issued_agrees (by decide : 1 * pageBlkSize < 2^32)
    (by decide : 1 * 4 ≤ nrSingleDpuPage) pipeline (by simp [pipeline,Command.Fits,cpuBody])
    ⟨BitVec.ofNat 32,fun _ _ => 0⟩ fun _ _ => 1
  refine ⟨goes,?_⟩
  intro final ran
  obtain ⟨arrays,alone,-,whole⟩ := agrees final ran
  exact ⟨arrays,alone,whole (by simp [pipeline,Ready])⟩

end Runs
end MetaPB.Operator.Offload
