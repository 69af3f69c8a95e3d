import ContractCompiler.Proofs.Codegen.Linkage
import ContractCompiler.Proofs.Codegen.Slots
import ContractCompiler.Proofs.Domain.Coverage
import ContractCompiler.Proofs.Ssa.Results
import ContractCompiler.Proofs.Vm.Safety

/-!
# Compiled modules are safe

The code that is made for a module without faults never lacks an operand, a local slot, a function
or an import, and never runs off its end: a run ends in a return, a stop of the program's or the
host's, a trap, or at a limit.

- `Lowerable`: what the code of a module relies on; modules made from documents have it;
- `FunctionContext.blockFits`: the blocks of such a module fit;
- `assembles_of_code?`: the functions that are compiled are assembled from code that flows;
- `safe_compile`: the compiled module is safe;
- `exists_load`: its memory can be set up.
-/

namespace ContractCompiler.Codegen

open Ssa (ValueId BlockId FuncId)

/-! ## Modules that code is made for -/

/-- What the code of a module relies on. -/
structure Lowerable (m : Ssa.Module) (types : TypePool) : Prop where
  sound : types.Sound
  valued : types.Valued
  typed : m.Typed types
  returns : m.Returns
  verified : ∀ (id : FuncId) f, m.functions[id]? = some f → f.excluded = false → f.Verified m

theorem lowerable_of_document {m : Ssa.Module} {types : TypePool} (hm : FromDocument m types)
    (hvalues : m.values.size ≤ Ssa.invalidId) {requireReachable : Bool}
    (hverify : m.verify requireReachable = []) :
    Lowerable m types :=
  ⟨hm.types_spec.1, hm.types_spec.2, hm.typed hvalues, hm.returns,
    fun _ _ hf hincl => Ssa.Module.verified_of_verify hverify hf hincl⟩

section Functions

variable [Hashing] {m : Ssa.Module} {types : TypePool} {unit : String} {options : CodegenOptions}
  {f : Ssa.Function} {b : BlockId}

/-- What the code of a function may rely on. -/
def flowContext (m : Ssa.Module) (types : TypePool) (unit : String) (options : CodegenOptions)
    (f : Ssa.Function) : FlowContext where
  slots := (lowerFunction m types unit options f).numLocals
  hasResult := !types.isUnit f.ret
  signature callee := (m.functions[callee]?).map
    fun g => (g.paramTypes.length, (!types.isUnit g.ret).toNat)
  blocks := f.blocks

/-- The instructions of a block have results as their code leaves words. -/
theorem resultFits (hm : Lowerable m types) (hf : f.Verified m) (hb : b ∈ f.blocks) {i : Ssa.Inst}
    (hi : i ∈ instsOf m b) :
    (functionContext m types unit options f).ResultFits (flowContext m types unit options f) i := by
  obtain ⟨id, hid, hinst⟩ := exists_inst_of_mem hi
  have htyped := hm.typed.instTyped hinst
  have hyields (hd : i.data.yields = true) : i.result.isSome = true :=
    htyped.isSome_result hm.sound hm.valued hd
  have hsilent (hd : i.data.isSilent = true) : i.result = none := htyped.result_eq_none hm.sound hd
  have hconst (hd : i.data.isConst = true) :
      (functionContext m types unit options f).heldBy i.result = 0 :=
    heldBy_const rfl hf hb hi hd
  unfold FunctionContext.ResultFits
  cases hd : i.data with
  | constInt | constBool | constBytes => exact hconst (by rw [hd]; rfl)
  | resultValue | context => trivial
  | refStore | stateWrite | emit => exact hsilent (by rw [hd]; rfl)
  | call callee args =>
    obtain ⟨g, hg, hargs⟩ := hf.call_args b hb id hid i callee args hinst hd
    obtain ⟨params, t, hsig, hresult⟩ := htyped.isSome_result_call hm.sound hd
    have hsig : (m.functions[callee]?).map (fun f => (f.paramTypes, f.ret)) =
      some (params, t) := hsig
    rw [hg] at hsig
    obtain ⟨rfl, rfl⟩ := Prod.mk.inj (Option.some.inj hsig)
    show (m.functions[callee]?).map _ = _
    rw [hg, Option.map_some, hargs, hresult]
    rfl
  | _ => exact hyields (by rw [hd]; rfl)

omit [Hashing] in
theorem exists_argsTo {t : Ssa.Terminator} {target : BlockId} (h : target ∈ t.successors) :
    ∃ args, args ∈ t.argsTo target := by
  cases t with
  | jump target' args =>
    obtain rfl := List.mem_singleton.mp h
    exact ⟨args, by simp [Ssa.Terminator.argsTo]⟩
  | branch cond t targs e eargs =>
    rcases List.mem_cons.mp h with rfl | h
    · exact ⟨targs, by simp [Ssa.Terminator.argsTo]⟩
    · obtain rfl := List.mem_singleton.mp h
      exact ⟨eargs, by simp [Ssa.Terminator.argsTo]⟩
  | _ => cases h

/-- The blocks of a function fit. -/
theorem blockFits (hm : Lowerable m types) (hmem : f ∈ m.functions) (hf : f.Verified m)
    (hb : b ∈ f.blocks) :
    (functionContext m types unit options f).BlockFits (flowContext m types unit options f)
      (m.block b) := by
  refine ⟨@linked_slotPlan _ f _ rfl hf b hb [] _ rfl, fun i hi => resultFits hm hf hb hi,
    fun t ht target htarget => ?_, rfl, fun hret => ?_⟩
  · obtain ⟨args, hargs⟩ := exists_argsTo htarget
    exact hf.edge_target b hb t target args ht hargs
  · show types.isUnit f.ret = true
    rw [hm.returns f hmem b hb hret]
    exact hm.sound.standard.isBuiltin .unit

end Functions

/-! ## Functions that are compiled -/

section Modules

variable [Hashing] {m : Ssa.Module} {types : TypePool} {options : CodegenOptions} {id : FuncId}
  {f : Ssa.Function} {code : LoweredFunction}

/-- The unit that a module is compiled for. -/
def unitOf (m : Ssa.Module) (options : CodegenOptions) : String :=
  if options.unit.isEmpty then m.unit else options.unit

/-- What is left of the code of a module. -/
def lowered (m : Ssa.Module) (types : TypePool) (options : CodegenOptions) : Lowering :=
  (lowerAll m types (unitOf m options) options).dropCallers m

theorem covers_lowered (m : Ssa.Module) (types : TypePool) (options : CodegenOptions) :
    (lowered m types options).Covers m types (unitOf m options) options m.functions.toList :=
  (Lowering.covers_lowerAll m types _ options).drops (Lowering.drops_dropCallersRounds m _ _)

theorem closed_lowered (m : Ssa.Module) (types : TypePool) (options : CodegenOptions) :
    (lowered m types options).Closed := by
  have hcovers := Lowering.covers_lowerAll m types (unitOf m options) options
  refine Lowering.closed_dropCallers m (hcovers.size_alive.trans ?_)
  rw [← Array.length_toList, hcovers.functions, List.length_map]

theorem getElem?_functions_lowered (hf : m.functions[id]? = some f) :
    (lowered m types options).functions[id]? =
      some (if f.excluded then none
        else some (lowerFunction m types (unitOf m options) options f)) := by
  rw [← Array.getElem?_toList, (covers_lowered m types options).functions, List.getElem?_map,
    Array.getElem?_toList, hf, Option.map_some]

/-- The functions that are left are functions of the module, with which nothing is wrong. -/
theorem exists_function_of_code? (h : (lowered m types options).code? id = some code) :
    ∃ f, m.functions[id]? = some f ∧ f.excluded = false ∧
      code = lowerFunction m types (unitOf m options) options f ∧
        ∀ p ∈ code.pieces, ∀ fault, .fault fault ∉ p.items := by
  unfold Lowering.code? at h
  split at h
  · rename_i halive
    have hcovers := covers_lowered m types options
    obtain ⟨hlt, -⟩ := Array.getElem?_eq_some_iff.mp (Lowering.getD_false_iff.mp halive)
    obtain ⟨f, hf⟩ : ∃ f, m.functions[id]? = some f :=
      ⟨_, Array.getElem?_eq_getElem (by rwa [hcovers.size_alive] at hlt)⟩
    have hf' : m.functions.toList[id]? = some f := by rwa [Array.getElem?_toList]
    obtain ⟨hincl, hfaults⟩ := hcovers.alive id f hf' halive
    rw [Array.getD_eq_getD_getElem?, getElem?_functions_lowered hf, hincl] at h
    obtain rfl := Option.some.inj h
    refine ⟨f, hf, hincl, rfl, fun p hp fault hfault => ?_⟩
    exact hfaults fault (List.mem_flatMap.mpr ⟨p, hp, hfault⟩)
  · cases h

/-- The functions that are left call such functions. -/
theorem exists_code_of_call (h : (lowered m types options).code? id = some code) {p : Piece}
    (hp : p ∈ code.pieces) {callee : FuncId} (hcall : .call callee ∈ p.items) :
    ∃ code', (lowered m types options).code? callee = some code' := by
  have hcallee : callee ∈ code.callees := by
    refine List.mem_eraseDups.mpr (List.mem_filterMap.mpr ⟨.call callee, ?_, rfl⟩)
    exact List.mem_flatMap.mpr ⟨p, hp, hcall⟩
  obtain ⟨f, hf, hincl, rfl, -⟩ := exists_function_of_code? h
  have halive : (lowered m types options).alive[id]? = some true := by
    unfold Lowering.code? at h
    split at h
    · rename_i halive
      exact Lowering.getD_false_iff.mp halive
    · cases h
  have hlost := closed_lowered m types options id halive
  unfold Lowering.lostCallee? at hlost
  rw [getElem?_functions_lowered hf, hincl] at hlost
  have hleft : (lowered m types options).alive.getD callee false = true := by
    simpa using List.find?_eq_none.mp hlost callee hcallee
  -- A function that is left was not excluded, so it has code.
  have hcovers := covers_lowered m types options
  obtain ⟨hlt, -⟩ := Array.getElem?_eq_some_iff.mp (Lowering.getD_false_iff.mp hleft)
  obtain ⟨g, hg⟩ : ∃ g, m.functions[callee]? = some g :=
    ⟨_, Array.getElem?_eq_getElem (by rwa [hcovers.size_alive] at hlt)⟩
  obtain ⟨hincl', -⟩ := hcovers.alive callee g (by rwa [Array.getElem?_toList]) hleft
  refine ⟨lowerFunction m types (unitOf m options) options g, ?_⟩
  unfold Lowering.code?
  rw [if_pos hleft, Array.getD_eq_getD_getElem?, getElem?_functions_lowered hg, hincl']
  rfl

/-- The bytecode of a function of a module. -/
def bytecode? (m : Ssa.Module) (types : TypePool) (options : CodegenOptions) (id : FuncId) :
    Option Vm.Function := do
  let code ← (lowered m types options).code? id
  let f ← m.functions[id]?
  return code.assemble (lowered m types options).linkage types (unitOf m options) f

theorem functions_compile (m : Ssa.Module) (types : TypePool) (options : CodegenOptions) :
    (m.compile types options).module.functions =
      ((lowered m types options).kept.filterMap (bytecode? m types options)).toArray :=
  rfl

theorem imports_compile (m : Ssa.Module) (types : TypePool) (options : CodegenOptions) :
    (m.compile types options).module.imports =
      ((lowered m types options).hostOps.filterMap importOf).toArray :=
  rfl

theorem bytecode?_eq_some (hf : m.functions[id]? = some f)
    (hcode : (lowered m types options).code? id = some code) :
    bytecode? m types options id =
      some (code.assemble (lowered m types options).linkage types (unitOf m options) f) := by
  unfold bytecode?
  rw [hcode, hf]
  rfl

/-- The bytecode of a function that is left. -/
theorem getElem?_functions_compile (hf : m.functions[id]? = some f)
    (hcode : (lowered m types options).code? id = some code) :
    (m.compile types options).module.functions[(lowered m types options).kept.idxOf id]? =
      some (code.assemble (lowered m types options).linkage types (unitOf m options) f) := by
  have hall : ∀ id ∈ (lowered m types options).kept, (bytecode? m types options id).isSome =
      true := by
    intro id hid
    obtain ⟨code, hcode⟩ := Lowering.mem_kept.mp hid
    obtain ⟨f, hf, -⟩ := exists_function_of_code? hcode
    rw [bytecode?_eq_some hf hcode]
    rfl
  rw [functions_compile, List.getElem?_toArray, Lowering.getElem?_filterMap_of_isSome hall,
    Lowering.getElem?_idxOf (Lowering.mem_kept.mpr ⟨code, hcode⟩), Option.bind_some,
    bytecode?_eq_some hf hcode]

/-- The functions of the bytecode module are those that are left. -/
theorem exists_of_mem_compile {g : Vm.Function}
    (hg : g ∈ (m.compile types options).module.functions) :
    ∃ id f code, m.functions[id]? = some f ∧ (lowered m types options).code? id = some code ∧
      g = code.assemble (lowered m types options).linkage types (unitOf m options) f := by
  obtain ⟨id, -, hg⟩ := List.mem_filterMap.mp (List.mem_toArray.mp hg)
  obtain ⟨code, hcode, hg⟩ := Option.bind_eq_some_iff.mp hg
  obtain ⟨f, hf, hg⟩ := Option.bind_eq_some_iff.mp hg
  exact ⟨id, f, code, hf, hcode, (Option.some.inj hg).symm⟩

/-! ## Safety -/

/-- The functions, the positions in their code and the addresses of data are numbered by words. -/
structure Addressable (m : Vm.Module) : Prop where
  functions : m.functions.size < 2 ^ 64
  code : ∀ f ∈ m.functions, f.code.size < 2 ^ 64
  data : dataSize m.data.toList < 2 ^ 64

/-- A call names the bytecode of the function that it calls. -/
theorem exists_callee (hsize : Addressable (m.compile types options).module)
    (hcode : (lowered m types options).code? id = some code) :
    ∃ f, m.functions[id]? = some f ∧
      (m.compile types options).module.functions[((lowered m types options).linkage.function
        id).toNat]? =
        some (code.assemble (lowered m types options).linkage types (unitOf m options) f) := by
  obtain ⟨f, hf, -⟩ := exists_function_of_code? hcode
  have hget := getElem?_functions_compile hf hcode
  obtain ⟨hlt, -⟩ := Array.getElem?_eq_some_iff.mp hget
  refine ⟨f, hf, ?_⟩
  rw [Lowering.toNat_function_linkage (Lowering.mem_kept.mpr ⟨code, hcode⟩)
    (hlt.trans hsize.functions), hget]

theorem mem_hostOps (hcode : (lowered m types options).code? id = some code) {p : Piece}
    (hp : p ∈ code.pieces) {op : HostOp} (hop : .callHost op ∈ p.items) :
    op ∈ (lowered m types options).hostOps := by
  refine List.mem_eraseDups.mpr (List.mem_flatMap.mpr ⟨id, Lowering.mem_kept.mpr ⟨code, hcode⟩, ?_⟩)
  rw [hcode]
  refine List.mem_eraseDups.mpr (List.mem_filterMap.mpr ⟨.callHost op, ?_, rfl⟩)
  exact List.mem_flatMap.mpr ⟨p, hp, hop⟩

/-- A function that is compiled is assembled from code that flows, and what its code names is
there. -/
theorem assembles_of_code? (hm : Lowerable m types)
    (hsize : Addressable (m.compile types options).module) (hf : m.functions[id]? = some f)
    (hcode : (lowered m types options).code? id = some code) :
    Assembles (flowContext m types (unitOf m options) options f) (lowered m types options).linkage
      (m.compile types options).module
      (code.assemble (lowered m types options).linkage types (unitOf m options) f) code.pieces := by
  have hget := getElem?_functions_compile hf hcode
  obtain ⟨f', hf', hincl, rfl, hfaults⟩ := exists_function_of_code? hcode
  obtain rfl := Option.some.inj (hf.symm.trans hf')
  have hmem := Array.mem_of_getElem? hf
  have hverified := hm.verified id f hf hincl
  have hplaced : (functionContext m types (unitOf m options) options f).Placed
      (flowContext m types (unitOf m options) options f) :=
    placed_slotPlan rfl rfl (Nat.le_add_right _ _)
  obtain ⟨entry, hentry, -⟩ := hverified.entry
  refine ⟨rfl, hsize.code _ (Array.mem_of_getElem? hget), rfl, rfl, ?_, ?_, ?_,
    fun b hb => exists_block_label hb,
    fun p hp op fl hjump => exists_failure_label hp hjump⟩
  · exact codeFlows_lowerFunction rfl hplaced (List.ne_nil_of_mem hentry)
      (fun b hb => blockFits hm hmem hverified hb) hfaults
  · intro p hp callee hcall takes leaves hsig
    obtain ⟨code', hcode'⟩ := exists_code_of_call hcode hp hcall
    obtain ⟨g, hg, hfunction⟩ := exists_callee hsize hcode'
    have hsig : (m.functions[callee]?).map _ = some (takes, leaves) := hsig
    rw [hg] at hsig
    obtain ⟨rfl, rfl⟩ := Prod.mk.inj (Option.some.inj hsig)
    exact ⟨_, hfunction, rfl, rfl⟩
  · intro p hp op hop
    obtain ⟨im, ref, him, href, hargs, hresult, -⟩ := importOf_spec op
    refine ⟨im, ref, ?_, href, hargs, hresult⟩
    rw [← him, ← getElem?_imports (mem_hostOps hcode hp hop)]
    exact List.getElem?_toArray

/-- The compiled module is safe. -/
theorem safe_compile (hm : Lowerable m types)
    (hsize : Addressable (m.compile types options).module) :
    (m.compile types options).module.Safe := by
  intro g hg
  obtain ⟨id, f, code, hf, hcode, rfl⟩ := exists_of_mem_compile hg
  exact (assembles_of_code? hm hsize hf hcode).safe

/-! ## Memory -/

omit [Hashing] in
/-- Segments that lie in memory can be put there. -/
theorem exists_loadData {segments : List Vm.DataSegment} (memory : Vm.Memory)
    (h : ∀ s ∈ segments, s.offset.toNat + s.bytes.length ≤ memory.size) :
    ∃ memory', Vm.loadData memory segments = .ok memory' := by
  induction segments generalizing memory with
  | nil => exact ⟨memory, rfl⟩
  | cons s segments ih =>
    have hbounds : memory.inBounds s.offset.toNat s.bytes.length = true :=
      decide_eq_true (h s List.mem_cons_self)
    obtain ⟨memory', hload⟩ := ih (memory.set s.offset.toNat s.bytes)
      fun s' hs' => h s' (List.mem_cons_of_mem s hs')
    refine ⟨memory', ?_⟩
    simp only [Vm.loadData, Vm.Memory.write?, hbounds, if_true]
    exact hload

omit [Hashing] in
theorem forM_checkImport {ims : List Vm.Import} (h : ∀ im ∈ ims, Vm.checkImport im = .ok ()) :
    ims.forM Vm.checkImport = .ok () := by
  induction ims with
  | nil => rfl
  | cons im ims ih =>
    show (Vm.checkImport im >>= fun _ => ims.forM Vm.checkImport) = .ok ()
    rw [h im List.mem_cons_self]
    exact ih fun im' him' => h im' (List.mem_cons_of_mem im him')

theorem data_compile (m : Ssa.Module) (types : TypePool) (options : CodegenOptions) :
    (m.compile types options).module.data.toList =
      { offset := 0, bytes := Bytes.littleEndian (UInt64.ofNat
        (align8 (lowered m types options).data.next)) } ::
        (lowered m types options).data.segments.toList :=
  Array.toList_append

/-- The data of a compiled module takes the memory up to the heap. -/
theorem dataSize_compile (m : Ssa.Module) (types : TypePool) (options : CodegenOptions) :
    dataSize (m.compile types options).module.data.toList =
      (lowered m types options).data.next := by
  have hword (w : UInt64) : align8 (Bytes.littleEndian w).length = 8 := by
    simp [Bytes.littleEndian, align8]
  rw [data_compile, (covers_lowered m types options).data.next]
  show align8 (Bytes.littleEndian _).length + dataSize _ = _
  rw [hword]

theorem heapBase_compile (m : Ssa.Module) (types : TypePool) (options : CodegenOptions) :
    (m.compile types options).module.heapBase =
      UInt64.ofNat (align8 (lowered m types options).data.next) :=
  rfl

theorem toNat_heapBase_compile (hsize : Addressable (m.compile types options).module) :
    (m.compile types options).module.heapBase.toNat = (lowered m types options).data.next := by
  have hdata := hsize.data
  rw [dataSize_compile] at hdata
  rw [heapBase_compile, align8_of_dvd (covers_lowered m types options).data.dvd_next]
  exact UInt64.toNat_ofNat_of_lt' hdata

/-- If the heap starts in memory, so does the data lie there. -/
theorem segment_le (hsize : Addressable (m.compile types options).module) {s : Vm.DataSegment}
    (hs : s ∈ (m.compile types options).module.data.toList) :
    s.offset.toNat + s.bytes.length ≤ (m.compile types options).module.heapBase.toNat := by
  have hsound := (covers_lowered m types options).data
  have hdata := hsize.data
  rw [dataSize_compile] at hdata
  rw [toNat_heapBase_compile hsize]
  rw [data_compile] at hs
  generalize (lowered m types options).data = d at hs hdata hsound ⊢
  rcases List.mem_cons.mp hs with rfl | hs
  · have hnext := hsound.next
    simp [Bytes.littleEndian]
    omega
  · obtain ⟨offset, hoffset, hbound⟩ := hsound.segment s (Array.mem_toList_iff.mp hs)
    rw [hoffset, UInt64.toNat_ofNat_of_lt' (show offset < 2 ^ 64 by omega)]
    exact hbound

theorem checkImport_of_mem {im : Vm.Import}
    (him : im ∈ (m.compile types options).module.imports.toList) :
    Vm.checkImport im = .ok () := by
  rw [imports_compile, List.toList_toArray] at him
  obtain ⟨op, -, hop⟩ := List.mem_filterMap.mp him
  obtain ⟨im', ref, him', href, -, -, harity⟩ := importOf_spec op
  obtain rfl := Option.some.inj (him'.symm.trans hop)
  simp only [Vm.checkImport, href, harity, ne_eq, not_true_eq_false, if_false]

/-- If the heap starts in memory, the memory of a compiled module can be set up. -/
theorem exists_load (hsize : Addressable (m.compile types options).module)
    (hheap : (m.compile types options).module.heapBase.toNat ≤
      (m.compile types options).module.memoryPages * Vm.pageSize) :
    ∃ memory, (m.compile types options).module.load = .ok memory := by
  have hsegments := fun s hs => (segment_le hsize (s := s) hs).trans hheap
  have himports := forM_checkImport fun im => @checkImport_of_mem _ m types options im
  generalize (m.compile types options).module = vm at hsegments himports ⊢
  obtain ⟨memory, hload⟩ := exists_loadData { size := vm.memoryPages * Vm.pageSize } hsegments
  refine ⟨memory, ?_⟩
  unfold Vm.Module.load
  rw [hload]
  show (do vm.imports.toList.forM Vm.checkImport; pure memory) = Except.ok memory
  rw [himports]
  rfl

end Modules

/-! ## Runs -/

/-- The position at which the code of a block of a function starts. -/
def blockStart [Hashing] (m : Ssa.Module) (types : TypePool) (options : CodegenOptions)
    (f : Ssa.Function) (b : BlockId) : Nat :=
  labelPosition (placed 0 (lowerFunction m types (unitOf m options) options f).pieces) (.block b)

variable [Hashing] {m : Ssa.Module} {types : TypePool} {options : CodegenOptions}

/-- A function that was compiled has a number, under which its bytecode stands. -/
theorem exists_of_index {id : FuncId} {cf : CompiledFunction}
    (hcf : (m.compile types options).functions[id]? = some cf) {index : Nat}
    (hindex : cf.index = some index) :
    ∃ f code, m.functions[id]? = some f ∧ (lowered m types options).code? id = some code ∧
      (m.compile types options).module.functions[index]? =
        some (code.assemble (lowered m types options).linkage types (unitOf m options) f) := by
  have hcf : (m.functions.mapIdx _)[id]? = some cf := hcf
  rw [Array.getElem?_mapIdx] at hcf
  obtain ⟨f, hf, rfl⟩ := Option.map_eq_some_iff.mp hcf
  dsimp only at hindex
  split at hindex
  · cases hindex
  · rename_i code hcode
    obtain rfl := Option.some.inj hindex
    exact ⟨f, code, hf, hcode, getElem?_functions_compile hf hcode⟩

end ContractCompiler.Codegen

namespace ContractCompiler

open Codegen
open Ssa (FuncId BlockId)

/-- A function of a module made from a document that was compiled runs into no error but that of a
limit, whatever its arguments, and whenever the code of a block starts in the course of the run, the
running activation has no words on the stack. -/
theorem runFunction_compile [Hashing] {m : Ssa.Module} {types : TypePool}
    (hm : FromDocument m types) (hvalues : m.values.size ≤ Ssa.invalidId) {requireReachable : Bool}
    (hverify : m.verify requireReachable = []) {options : CodegenOptions} {c : CompiledModule}
    (hc : m.compile types options = c) (hsize : Addressable c.module)
    (hheap : c.module.heapBase.toNat ≤ c.module.memoryPages * Vm.pageSize) {id : FuncId}
    {cf : CompiledFunction} (hcf : c.functions[id]? = some cf) (hok : cf.ok = true) :
    ∃ index f, cf.index = some index ∧ c.module.functions[index]? = some f ∧
      ∀ args : List UInt64, args.length = f.numParams → ∀ (ledger : Ledger) (limits : Vm.Limits),
        ((c.module.runFunction index args ledger limits).1.exit = .error →
          (c.module.runFunction index args ledger limits).1.message ∈
            Vm.limitErrors.map (·.message)) ∧
        ∀ start n config, c.module.start index args ledger limits = .ok start →
          Vm.configAfter c.module limits n start = some config →
            ∀ (id' index' : FuncId) g cg b, m.functions[id']? = some g → b ∈ g.blocks →
              c.functions[id']? = some cg → cg.index = some index' →
                c.module.functions[index']? = some config.frame.function →
                  config.frame.pc = blockStart m types options g b →
                  config.stack.height = config.frame.base := by
  subst hc
  have hlower := lowerable_of_document hm hvalues hverify
  have hsafe := safe_compile hlower hsize
  obtain ⟨index, hindex⟩ := Option.isSome_iff_exists.mp hok
  obtain ⟨f, code, -, -, hget⟩ := exists_of_index hcf hindex
  refine ⟨index, _, hindex, hget, fun args hargs ledger limits => ⟨fun hexit => ?_, ?_⟩⟩
  · obtain ⟨memory, hload⟩ := exists_load hsize hheap
    exact hsafe.runFunction hload hget hargs ledger hexit
  · intro start n config hstart hafter id' index' g cg b hg hb hcg hindex' hfunction hpc
    obtain ⟨g', code', hg', hcode', hget'⟩ := exists_of_index hcg hindex'
    obtain rfl := Option.some.inj (hg.symm.trans hg')
    obtain ⟨own, hreached, hheight⟩ :=
      ((Vm.safe_start hget hargs hstart).after hsafe hafter).frame.reached
    have hassembles := assembles_of_code? hlower hsize hg hcode'
    obtain ⟨g'', hg'', -, rfl, -⟩ := exists_function_of_code? hcode'
    obtain rfl := Option.some.inj (hg.symm.trans hg'')
    rw [Option.some.inj (hfunction.symm.trans hget'), hpc] at hreached
    rw [hheight, hassembles.height_of_reached_block hb hreached, Nat.add_zero]

/-- The contract of `writerText`, compiled with SHA-256. -/
def compiledWriter : CompiledModule := @Ssa.Module.compile Hashing.sha256 writerModule {} {}

/-- The function `g` of the contract has the number 1 and takes no arguments; no run of it ends in
an error but that of a limit. -/
theorem runFunction_compile_writer :
    (compiledWriter.module.functions[1]?).map (·.numParams) = some 0 ∧
      ((@Vm.Module.runFunction Hashing.sha256 compiledWriter.module 1 [] {} {}).1.exit = .error →
        (@Vm.Module.runFunction Hashing.sha256 compiledWriter.module 1 [] {} {}).1.message ∈
          Vm.limitErrors.map (·.message)) := by
  have hfacts : (compiledWriter.module.functions.size < 2 ^ 64 ∧
        (∀ f ∈ compiledWriter.module.functions, f.code.size < 2 ^ 64) ∧
        dataSize compiledWriter.module.data.toList < 2 ^ 64 ∧
        compiledWriter.module.heapBase.toNat ≤ compiledWriter.module.memoryPages * Vm.pageSize) ∧
      compiledWriter.functions[1]? = some (compiledWriter.functions.getD 1 {}) ∧
      (compiledWriter.functions.getD 1 {}).index = some 1 ∧
      (compiledWriter.module.functions[1]?).map (·.numParams) = some 0 := by
    decide +kernel
  obtain ⟨⟨hfunctions, hcode, hdata, hheap⟩, hcf, hindex, hparams⟩ := hfacts
  obtain ⟨index, f, hindex', hf, hrun⟩ :=
    @runFunction_compile Hashing.sha256 _ _ fromDocument_writer (by decide) false
      (List.isEmpty_iff.mp (by decide +kernel)) {} compiledWriter rfl ⟨hfunctions, hcode, hdata⟩
        hheap 1 _ hcf (Option.isSome_iff_exists.mpr ⟨1, hindex⟩)
  obtain rfl := Option.some.inj (hindex.symm.trans hindex')
  rw [hf] at hparams
  exact ⟨hf ▸ hparams, (hrun [] (Option.some.inj hparams).symm {} {}).1⟩

end ContractCompiler
