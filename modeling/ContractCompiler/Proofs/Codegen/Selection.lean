import ContractCompiler.Proofs.Codegen.Calls
import ContractCompiler.Proofs.Codegen.Program
import ContractCompiler.Proofs.Ssa.Exclude

/-!
# Which functions are compiled

A function is compiled exactly if it belongs to the greatest set of functions that are not left out,
with whose code nothing is wrong, and that call only one another. Calls and exports name such
functions by their numbers, and host calls name the imports of their operations.

- `dataOf`, `faultsOf`: what is wrong with a function, given the data of those before it;
- `SelfContained`, `isGreatest_okIds`: the functions that are compiled;
- `CompiledModule.Links`, `links_compile`: their numbers, and what calls and exports name;
- `exclusion_exact`: both ways in which functions are left out.
-/

namespace ContractCompiler

open Ssa (FuncId)
open Codegen

/-- The functions of a compiled module that were compiled. -/
def CompiledModule.okIds (c : CompiledModule) : Set FuncId :=
  {id | ∃ f, c.functions[id]? = some f ∧ f.ok = true}

/-- The number in the bytecode of a function of a compiled module. -/
def CompiledModule.index? (c : CompiledModule) (id : FuncId) : Option Nat :=
  (c.functions[id]?).bind (·.index)

namespace Codegen

/-- The code of a function names what the function calls: each of its calls the number of the
callee, and each of its host calls an import that stands for the operation. The host calls of shared
failures come last. -/
structure NamesTargets (c : CompiledModule) (m : Ssa.Module) (types : TypePool) (f : Ssa.Function)
    (code : List Vm.Instr) : Prop where
  calls : List.Forall₂ (fun i callee => ∃ n, c.index? callee = some n ∧ i.imm = UInt64.ofNat n)
    (code.filter (·.op == .call)) (callSites m f)
  hostCalls : ∃ k, List.Forall₂ (fun i o => ∃ n im ref, c.module.imports[n]? = some im ∧
      im.hostRef? = some ref ∧
      HostRef.ofOp? o = some ref ∧ i.imm = UInt64.ofNat n)
    (code.filter (·.op == .callHost)) (hostSites m types f ++ List.replicate k .panic)

section Faults

variable [Hashing] {m : Ssa.Module} {types : TypePool} {unit : String} {options : CodegenOptions}
  {fs : List Ssa.Function} {l l' : Lowering} {id c : FuncId} {f : Ssa.Function}

/-! ## What is wrong with functions -/

/-- The constant data of functions that are lowered one after the other. -/
def dataOf (m : Ssa.Module) (types : TypePool) (unit : String) (options : CodegenOptions)
    (fs : List Ssa.Function) : DataLayout :=
  fs.foldl (fun d f => if f.excluded then d
    else ((lowerFunction m types unit options f).layOut options d).2) {}

/-- What is wrong with a function of a module. Its data stands behind that of the functions before
it. -/
def faultsOf (m : Ssa.Module) (types : TypePool) (options : CodegenOptions) (id : FuncId)
    (f : Ssa.Function) :
    List Fault :=
  let unit := unitOf m options
  ((lowerFunction m types unit options f).layOut options
    (dataOf m types unit options (m.functions.toList.take id))).1

/-- Some functions have been lowered, and those with which nothing is wrong are left. -/
structure Lowering.Sorts (m : Ssa.Module) (types : TypePool) (unit : String)
    (options : CodegenOptions) (fs : List Ssa.Function) (l : Lowering) : Prop where
  data : l.data = dataOf m types unit options fs
  size_alive : l.alive.size = fs.length
  alive : ∀ (id : FuncId) f, fs[id]? = some f → (l.alive[id]? = some true ↔ f.excluded = false ∧
    ((lowerFunction m types unit options f).layOut options
      (dataOf m types unit options (fs.take id))).1 = [])

theorem alive_add (l : Lowering) (f : Ssa.Function) :
    (l.add m types unit options f).alive = l.alive.push
      (!f.excluded && ((lowerFunction m types unit options f).layOut options
        l.data).1.isEmpty) := by
  unfold Lowering.add
  cases hexcl : f.excluded <;> rfl

theorem data_add (l : Lowering) (f : Ssa.Function) :
    (l.add m types unit options f).data =
      if f.excluded then l.data
        else ((lowerFunction m types unit options f).layOut options l.data).2 := by
  unfold Lowering.add
  split <;> rfl

theorem Lowering.Sorts.add (h : l.Sorts m types unit options fs) (f : Ssa.Function) :
    (l.add m types unit options f).Sorts m types unit options (fs ++ [f]) where
  data := by
    rw [data_add, h.data, dataOf, dataOf, List.foldl_append]
    rfl
  size_alive := by
    rw [alive_add, Array.size_push, h.size_alive, List.length_append, List.length_singleton]
  alive id g hg := by
    rw [alive_add, Array.getElem?_push, h.size_alive]
    rcases Nat.lt_or_ge id fs.length with hlt | hge
    · rw [List.getElem?_append_left hlt] at hg
      rw [if_neg hlt.ne, List.take_append_of_le_length hlt.le]
      exact h.alive id g hg
    · -- The function that was added stands behind the others.
      obtain ⟨hlt, -⟩ := List.getElem?_eq_some_iff.mp hg
      obtain rfl : id = fs.length := by
        rw [List.length_append, List.length_singleton] at hlt
        exact Nat.le_antisymm (Nat.le_of_lt_succ hlt) hge
      obtain rfl : f = g := by simpa using hg
      rw [if_pos rfl, List.take_append_of_le_length (Nat.le_refl _), List.take_length, h.data]
      simp

theorem sorts_lowerAll (m : Ssa.Module) (types : TypePool) (unit : String)
    (options : CodegenOptions) :
    (lowerAll m types unit options).Sorts m types unit options m.functions.toList := by
  have hfold (rest fs : List Ssa.Function) (l : Lowering) (h : l.Sorts m types unit options fs) :
      (rest.foldl (fun l f => l.add m types unit options f) l).Sorts m types unit options
        (fs ++ rest) := by
    induction rest generalizing fs l with
    | nil => simpa using h
    | cons f rest ih => simpa using ih (fs ++ [f]) _ (h.add f)
  unfold lowerAll
  rw [← Array.foldl_toList]
  exact hfold m.functions.toList [] {} ⟨rfl, rfl, nofun⟩

/-- Before callers are dropped, the functions with which nothing is wrong are left. -/
theorem alive_lowerAll (hf : m.functions[id]? = some f) :
    (lowerAll m types (unitOf m options) options).alive[id]? = some true ↔
      f.excluded = false ∧ faultsOf m types options id f = [] :=
  (sorts_lowerAll m types (unitOf m options) options).alive id f (by rwa [Array.getElem?_toList])

/-- A function with which nothing is wrong has no faults in its code. -/
theorem fault_not_mem_of_faultsOf (h : faultsOf m types options id f = []) (fault : Fault) :
    .fault fault ∉ (lowerFunction m types (unitOf m options) options f).items := by
  have hfaults := (List.append_eq_nil_iff.mp h).1
  exact fault_not_mem_of_layOut hfaults fault

/-! ## What functions call -/

omit [Hashing] in
theorem mem_callSites (hf : m.functions[id]? = some f) : c ∈ callSites m f ↔ m.Calls id c := by
  unfold callSites Ssa.Module.Calls
  simp only [List.mem_flatMap, List.mem_filterMap, hf, Option.some.injEq, exists_eq_left']
  constructor
  · rintro ⟨b, hb, inst, hinst, hcallee⟩
    obtain ⟨i, hi, hinst⟩ := exists_inst_of_mem hinst
    exact ⟨b, hb, i, hi, inst, hinst, hcallee⟩
  · rintro ⟨b, hb, i, hi, inst, hinst, hcallee⟩
    refine ⟨b, hb, inst, List.mem_map.mpr ⟨(i, inst), ?_, rfl⟩, hcallee⟩
    exact List.mem_filterMap.mpr ⟨i, hi, by rw [hinst]; rfl⟩

omit [Hashing] in
theorem callee?_panics (n : Nat) :
    (List.replicate n (Item.callHost .panic)).filterMap (·.callee?) = [] := by
  rw [List.filterMap_eq_nil_iff]
  intro i hi
  rw [List.eq_of_mem_replicate hi]
  rfl

/-- The code of a function calls the functions that the function calls. -/
theorem callee?_items
    (hfault : ∀ fault, .fault fault ∉ (lowerFunction m types unit options f).items) :
    (lowerFunction m types unit options f).items.filterMap (·.callee?) = callSites m f := by
  have hcalls (is : List Item) :
      is.filterMap (·.callee?) = (callItems is).filterMap (·.callee?) := by
    unfold callItems
    rw [List.filterMap_filter]
    refine List.filterMap_congr fun i _ => ?_
    cases hcall : i.isCall with
    | true => rfl
    | false =>
      cases i with
      | call => cases hcall
      | _ => rfl
  obtain ⟨n, hitems⟩ := callItems_lowerFunction hfault
  rw [hcalls, hitems, List.filterMap_append, callee?_functionCalls, callee?_panics, List.append_nil]

end Faults

/-! ## Functions that are left -/

/-- The functions of a compiled module are numbered one after the other, and what has a number in
their code and in the exports is what was meant. -/
structure Links [Hashing] (c : CompiledModule) (m : Ssa.Module) (types : TypePool)
    (options : CodegenOptions) :
    Prop where
  indices : c.functions.toList.filterMap (·.index) = List.range c.module.functions.size
  /-- The number of a function is that of its bytecode. -/
  bytecode : ∀ id n, c.index? id = some n → ∃ f link g, m.functions[id]? = some f ∧
    c.module.functions[n]? = some g ∧
    g = (lowerFunction m types (unitOf m options) options f).assemble link types
      (unitOf m options) f ∧
    NamesTargets c m types f g.code.toList
  exports : ∀ e, e ∈ c.module.exports ↔ ∃ id f n, m.functions[id]? = some f ∧ f.isPublic = true ∧
    c.index? id = some n ∧ e =
      { name := Bytes.utf8 (exportName types (unitOf m options) f), function := n }

section Modules

variable [Hashing] {m : Ssa.Module} {types : TypePool} {options : CodegenOptions} {l : Lowering}
  {id c : FuncId}
  {f : Ssa.Function} {code : LoweredFunction}

/-- Functions that can be compiled together: none is left out, nothing is wrong with the code of
any, and they call only one another. -/
def SelfContained (m : Ssa.Module) (types : TypePool) (options : CodegenOptions)
    (s : Set FuncId) : Prop :=
  ∀ id ∈ s, ∃ f, m.functions[id]? = some f ∧ f.excluded = false ∧
    faultsOf m types options id f = [] ∧
    ∀ c, m.Calls id c → c ∈ s

omit [Hashing] in
/-- Functions that are left and call only one another stay. -/
theorem alive_dropCaller {s : Set FuncId} (hleft : ∀ id ∈ s, l.alive[id]? = some true)
    (hcalls : ∀ id ∈ s, ∀ code, l.functions[id]? = some (some code) → ∀ c ∈ code.callees, c ∈ s)
    (id' : FuncId) :
    ∀ id ∈ s, (l.dropCaller m id').alive[id]? = some true := by
  intro id hid
  unfold Lowering.dropCaller
  split
  · split
    · rename_i callee hlost
      -- The function that is left out calls one that is not left, so it is none of the set.
      rw [Array.getElem?_setIfInBounds_ne, hleft id hid]
      rintro rfl
      unfold Lowering.lostCallee? at hlost
      obtain ⟨code?, hcode?, hlost⟩ := Option.bind_eq_some_iff.mp hlost
      obtain ⟨code, rfl, hlost⟩ := Option.bind_eq_some_iff.mp hlost
      have hmem := hcalls id' hid code hcode? callee (List.mem_of_find?_eq_some hlost)
      have hdead := List.find?_some hlost
      rw [Lowering.getD_false_iff.mpr (hleft callee hmem)] at hdead
      cases hdead
    · exact hleft id hid
  · exact hleft id hid

omit [Hashing] in
theorem alive_dropCallers {s : Set FuncId} (hleft : ∀ id ∈ s, l.alive[id]? = some true)
    (hcalls : ∀ id ∈ s, ∀ code, l.functions[id]? = some (some code) → ∀ c ∈ code.callees, c ∈ s) :
    ∀ id ∈ s, (l.dropCallers m).alive[id]? = some true := by
  have hpass (ids : List FuncId) (l : Lowering) (hleft : ∀ id ∈ s, l.alive[id]? = some true)
      (hcalls : ∀ id ∈ s, ∀ code, l.functions[id]? = some (some code) → ∀ c ∈ code.callees, c ∈ s) :
      ∀ id ∈ s, (ids.foldl (Lowering.dropCaller m) l).alive[id]? = some true := by
    induction ids generalizing l with
    | nil => exact hleft
    | cons id' ids ih =>
      refine ih _ (alive_dropCaller hleft hcalls id') ?_
      rwa [(Lowering.drops_dropCaller m l id').functions]
  have hrounds (n : Nat) (l : Lowering) (hleft : ∀ id ∈ s, l.alive[id]? = some true)
      (hcalls : ∀ id ∈ s, ∀ code, l.functions[id]? = some (some code) → ∀ c ∈ code.callees, c ∈ s) :
      ∀ id ∈ s, (l.dropCallersRounds m n).alive[id]? = some true := by
    induction n generalizing l with
    | zero => exact hleft
    | succ n ih =>
      unfold Lowering.dropCallersRounds
      dsimp only
      split
      · exact hleft
      · refine ih _ (hpass _ l hleft hcalls) ?_
        rwa [(Lowering.drops_foldl m _ l).functions]
  exact hrounds _ l hleft hcalls

theorem code?_of_alive (hf : m.functions[id]? = some f) (hincl : f.excluded = false)
    (halive : (lowered m types options).alive[id]? = some true) :
    (lowered m types options).code? id = some
      (lowerFunction m types (unitOf m options) options f) := by
  unfold Lowering.code?
  rw [if_pos (Lowering.getD_false_iff.mpr halive), Array.getD_eq_getD_getElem?,
    getElem?_functions_lowered hf, hincl]
  rfl

omit [Hashing] in
/-- What is known of a function after compilation. -/
theorem getElem?_compiledFunctions (l : Lowering) (types : TypePool) (unit : String)
    (gas : Array UInt64) (hf : m.functions[id]? = some f) :
    ∃ cf, (compiledFunctions l m types unit gas)[id]? = some cf ∧
      cf.index = (l.code? id).map (fun _ => l.kept.idxOf id) ∧
      (cf.exported = true ↔ (l.code? id).isSome = true ∧ f.isPublic = true) ∧
      (f.excluded = false → cf.name = exportName types unit f) := by
  unfold compiledFunctions
  rw [Array.getElem?_mapIdx, hf]
  refine ⟨_, rfl, ?_⟩
  cases l.code? id with
  | none => exact ⟨rfl, by simp, fun hincl => by simp [hincl]⟩
  | some code => exact ⟨rfl, by simp, fun hincl => by simp [hincl]⟩

theorem functions_eq_compiled (m : Ssa.Module) (types : TypePool) (options : CodegenOptions) :
    ∃ gas, (m.compile types options).functions =
      compiledFunctions (lowered m types options) m types (unitOf m options) gas :=
  ⟨_, rfl⟩

/-- A function that is left has its place among those that are left as its number. -/
theorem index?_compile (m : Ssa.Module) (types : TypePool) (options : CodegenOptions)
    (id : FuncId) :
    (m.compile types options).index? id =
      ((lowered m types options).code? id).map fun _ =>
        (lowered m types options).kept.idxOf id := by
  obtain ⟨gas, hfunctions⟩ := functions_eq_compiled m types options
  unfold CompiledModule.index?
  rw [hfunctions]
  cases hf : m.functions[id]? with
  | none =>
    have hnone : (compiledFunctions (lowered m types options) m types (unitOf m options) gas)[id]? =
        none := by
      unfold compiledFunctions
      rw [Array.getElem?_mapIdx, hf, Option.map_none]
    rw [hnone]
    cases hcode : (lowered m types options).code? id with
    | none => rfl
    | some code =>
      obtain ⟨f, hf', -⟩ := exists_function_of_code? hcode
      cases hf.symm.trans hf'
  | some f =>
    obtain ⟨cf, hcf, hindex, -⟩ := getElem?_compiledFunctions (lowered m types options) types
      (unitOf m options) gas hf
    rw [hcf, Option.bind_some, hindex]

theorem mem_okIds :
    id ∈ (m.compile types options).okIds ↔ ∃ code, (lowered m types options).code? id =
      some code := by
  have hok : id ∈ (m.compile types options).okIds ↔
      ((m.compile types options).index? id).isSome = true := by
    unfold CompiledModule.okIds CompiledModule.index? CompiledFunction.ok
    cases hcf : (m.compile types options).functions[id]? <;> simp [hcf]
  rw [hok, index?_compile, Option.isSome_map, Option.isSome_iff_exists]

/-- The functions that are compiled are the most that can be compiled together. -/
theorem isGreatest_okIds (m : Ssa.Module) (types : TypePool) (options : CodegenOptions) :
    IsGreatest {s | SelfContained m types options s} (m.compile types options).okIds := by
  constructor
  · intro id hid
    obtain ⟨code, hcode⟩ := mem_okIds.mp hid
    obtain ⟨f, hf, hincl, rfl, hfaults⟩ := exists_function_of_code? hcode
    have halive : (lowered m types options).alive[id]? = some true := by
      unfold Lowering.code? at hcode
      split at hcode
      · rename_i halive
        exact Lowering.getD_false_iff.mp halive
      · cases hcode
    have hbefore := (Lowering.drops_dropCallersRounds m _ _).alive id halive
    refine ⟨f, hf, hincl, ((alive_lowerAll hf).mp hbefore).2, fun c hc => mem_okIds.mpr ?_⟩
    have hclean :
        ∀ fault, .fault fault ∉ (lowerFunction m types (unitOf m options) options f).items := by
      intro fault hmem
      obtain ⟨p, hp, hmem⟩ := List.mem_flatMap.mp hmem
      exact hfaults p hp fault hmem
    -- A call of the function stands in its code.
    rw [← mem_callSites hf, ← callee?_items hclean] at hc
    obtain ⟨item, hitem, hcallee⟩ := List.mem_filterMap.mp hc
    obtain ⟨p, hp, hitem⟩ := List.mem_flatMap.mp hitem
    cases item with
    | call callee =>
      obtain rfl := Option.some.inj hcallee
      exact exists_code_of_call hcode hp hitem
    | _ => cases hcallee
  · intro s hs id hid
    have hleft : ∀ id ∈ s, (lowerAll m types (unitOf m options) options).alive[id]? =
        some true := by
      intro id hid
      obtain ⟨f, hf, hincl, hfaults, -⟩ := hs id hid
      exact (alive_lowerAll hf).mpr ⟨hincl, hfaults⟩
    have hcalls : ∀ id ∈ s, ∀ code, (lowerAll m types (unitOf m options) options).functions[id]? =
        some (some code) →
        ∀ c ∈ code.callees, c ∈ s := by
      intro id hid code hcode c hc
      obtain ⟨f, hf, hincl, hfaults, hcalls⟩ := hs id hid
      rw [← Array.getElem?_toList, (Lowering.covers_lowerAll m types (unitOf m options)
        options).functions, List.getElem?_map, Array.getElem?_toList, hf, Option.map_some,
        hincl] at hcode
      obtain rfl := Option.some.inj (Option.some.inj hcode)
      unfold LoweredFunction.callees at hc
      rw [List.mem_eraseDups, callee?_items (fault_not_mem_of_faultsOf hfaults),
        mem_callSites hf] at hc
      exact hcalls c hc
    obtain ⟨f, hf, hincl, -⟩ := hs id hid
    exact mem_okIds.mpr ⟨_, code?_of_alive hf hincl (alive_dropCallers hleft hcalls id hid)⟩

/-! ## Numbers -/

theorem size_functions_lowered (m : Ssa.Module) (types : TypePool) (options : CodegenOptions) :
    (lowered m types options).functions.size = m.functions.size := by
  rw [← Array.length_toList, (covers_lowered m types options).functions, List.length_map,
    Array.length_toList]

theorem size_functions_compile (m : Ssa.Module) (types : TypePool) (options : CodegenOptions) :
    (m.compile types options).module.functions.size = (lowered m types options).kept.length := by
  rw [functions_compile, List.size_toArray, List.filterMap_length_eq_length]
  intro id hid
  obtain ⟨code, hcode⟩ := Lowering.mem_kept.mp hid
  obtain ⟨f, hf, -⟩ := exists_function_of_code? hcode
  rw [bytecode?_eq_some hf hcode]
  rfl

/-- The numbers of the functions that are compiled are consecutive. -/
theorem filterMap_index_compile (m : Ssa.Module) (types : TypePool) (options : CodegenOptions) :
    (m.compile types options).functions.toList.filterMap (·.index) =
      List.range (m.compile types options).module.functions.size := by
  let kept := (lowered m types options).kept
  let number (id : FuncId) := ((lowered m types options).code? id).map fun _ => kept.idxOf id
  have hnumbers : (m.compile types options).functions.toList.map (·.index) =
      (List.range m.functions.size).map number := by
    refine List.ext_getElem (by simp [Ssa.Module.compile, compiledFunctions]) fun id hid hid' => ?_
    have hindex := index?_compile m types options id
    rw [List.length_map, Array.length_toList] at hid
    rw [CompiledModule.index?, Array.getElem?_eq_getElem hid] at hindex
    simpa using hindex
  have hkept (ids : List FuncId) : ids.filterMap number =
      (ids.filter fun id => ((lowered m types options).code? id).isSome).map kept.idxOf := by
    induction ids with
    | nil => rfl
    | cons id ids ih =>
      cases hcode : (lowered m types options).code? id <;> simp [number, hcode, ih]
  have hplaces : kept.map kept.idxOf = List.range kept.length := by
    refine List.ext_getElem (by simp) fun i hi hi' => ?_
    rw [List.getElem_map, List.getElem_range]
    exact (Lowering.nodup_kept _).idxOf_getElem i _
  calc (m.compile types options).functions.toList.filterMap (·.index)
      = ((m.compile types options).functions.toList.map (·.index)).filterMap fun n => n := by
        rw [List.filterMap_map]
        rfl
    _ = (List.range m.functions.size).filterMap number := by
        rw [hnumbers, List.filterMap_map]
        rfl
    _ = kept.map kept.idxOf := by
        rw [hkept, ← size_functions_lowered m types options]
        rfl
    _ = List.range (m.compile types options).module.functions.size := by
        rw [hplaces, size_functions_compile]

/-! ## Bytecode -/

omit [Hashing] in
/-- The instructions of calls, apart by their kind. -/
theorem filter_op_encode (link : Linkage) {is : List Item}
    (h : ∀ i ∈ is, (∃ c, i = .call c) ∨ ∃ o, i = .callHost o) :
    ((is.filterMap (·.encode link fun _ => 0)).filter (·.op == .call) =
        (is.filterMap (·.callee?)).map fun c => { op := .call, imm := link.function c }) ∧
      (is.filterMap (·.encode link fun _ => 0)).filter (·.op == .callHost) =
        (is.filterMap (·.hostOp?)).map fun o => { op := .callHost, imm := link.host o } := by
  induction is with
  | nil => exact ⟨rfl, rfl⟩
  | cons i is ih =>
    obtain ⟨hcalls, hhosts⟩ := ih fun i' hi' => h i' (List.mem_cons_of_mem i hi')
    obtain ⟨c, rfl⟩ | ⟨o, rfl⟩ := h i List.mem_cons_self
    · exact ⟨congrArg (_ :: ·) hcalls, hhosts⟩
    · exact ⟨hcalls, congrArg (_ :: ·) hhosts⟩

omit [Hashing] in
/-- The import of a host operation stands for it. -/
theorem exists_hostRef_importOf (o : HostOp) :
    ∃ im ref, importOf o = some im ∧ im.hostRef? = some ref ∧ HostRef.ofOp? o = some ref := by
  cases o <;>
  · refine ⟨_, _, rfl, ?_, rfl⟩
    simp only [Vm.Import.hostRef?, Bytes.text?_utf8]
    rfl

/-- The calls in the bytecode of a function that is compiled. -/
theorem namesTargets_assemble (hf : m.functions[id]? = some f)
    (hcode : (lowered m types options).code? id = some code) :
    NamesTargets (m.compile types options) m types f
      (assemble (lowered m types options).linkage code.pieces) := by
  let link := (lowered m types options).linkage
  obtain ⟨f', hf', hincl, hlower, hfaults⟩ := exists_function_of_code? hcode
  obtain rfl := Option.some.inj (hf.symm.trans hf')
  have hclean :
      ∀ fault, .fault fault ∉ (lowerFunction m types (unitOf m options) options f).items := by
    intro fault hmem
    obtain ⟨p, hp, hmem⟩ := List.mem_flatMap.mp hmem
    exact hfaults p (hlower ▸ hp) fault hmem
  obtain ⟨k, hitems⟩ := callItems_lowerFunction hclean
  rw [← hlower] at hitems
  have hnames : ∀ i ∈ callItems code.items, (∃ c, i = .call c) ∨ ∃ o, i = .callHost o := by
    intro i hi
    rw [hitems] at hi
    rcases List.mem_append.mp hi with hi | hi
    · exact exists_of_mem_functionCalls hi
    · exact .inr ⟨.panic, List.eq_of_mem_replicate hi⟩
  -- the calls are those of the instructions, and a panic for each failure that is jumped to
  have hall : (assemble link code.pieces).filter (fun i => isCallOp i.op) =
      (callItems code.items).filterMap (·.encode link fun _ => 0) :=
    filter_isCall_assemble link hnames
  have hcalls (o : Vm.Op) (ho : isCallOp o = true) :
      (assemble link code.pieces).filter (·.op == o) =
      ((callItems code.items).filterMap (·.encode link fun _ => 0)).filter (·.op == o) := by
    rw [← hall, List.filter_filter]
    refine List.filter_congr fun i _ => ?_
    by_cases heq : i.op = o
    · simp [heq, ho]
    · simp [heq]
  obtain ⟨hfunctions, hhosts⟩ := filter_op_encode link hnames
  have hcallees : (callItems code.items).filterMap (·.callee?) = callSites m f := by
    rw [hitems, List.filterMap_append, callee?_functionCalls, callee?_panics, List.append_nil]
  have hops : (callItems code.items).filterMap (·.hostOp?) =
      hostSites m types f ++ List.replicate k .panic := by
    rw [hitems, List.filterMap_append, List.filterMap_replicate]
    rfl
  have hitem {i : Item} (hi : i ∈ callItems code.items) : ∃ p ∈ code.pieces, i ∈ p.items :=
    List.mem_flatMap.mp (List.mem_filter.mp hi).1
  constructor
  · rw [hcalls .call rfl, hfunctions, hcallees, List.forall₂_map_left_iff, List.forall₂_same]
    intro c hc
    rw [← hcallees] at hc
    obtain ⟨i, hi, hcallee⟩ := List.mem_filterMap.mp hc
    cases i with
    | call callee =>
      obtain rfl := Option.some.inj hcallee
      obtain ⟨p, hp, hmem⟩ := hitem hi
      obtain ⟨code', hcode'⟩ := exists_code_of_call hcode hp hmem
      refine ⟨(lowered m types options).kept.idxOf callee, ?_, ?_⟩
      · rw [index?_compile, hcode']
        rfl
      · exact Lowering.function_linkage (Lowering.mem_kept.mpr ⟨code', hcode'⟩)
    | _ => cases hcallee
  · refine ⟨k, ?_⟩
    rw [hcalls .callHost rfl, hhosts, hops, List.forall₂_map_left_iff, List.forall₂_same]
    intro o ho
    rw [← hops] at ho
    obtain ⟨i, hi, hop⟩ := List.mem_filterMap.mp ho
    cases i with
    | callHost o' =>
      obtain rfl := Option.some.inj hop
      obtain ⟨p, hp, hmem⟩ := hitem hi
      obtain ⟨im, ref, him, href, hof⟩ := exists_hostRef_importOf o'
      refine ⟨(lowered m types options).hostOps.idxOf o', im, ref, ?_, href, hof, rfl⟩
      rw [imports_compile, List.getElem?_toArray,
        Lowering.getElem?_filterMap_of_isSome fun o _ => isSome_importOf o,
        Lowering.getElem?_idxOf (mem_hostOps hcode hp hmem), Option.bind_some, him]
    | _ => cases hop

/-- The exports of a compiled module. -/
theorem mem_exports_compile {e : Vm.Export} :
    e ∈ (m.compile types options).module.exports ↔ ∃ id f n, m.functions[id]? = some f ∧
      f.isPublic = true ∧
      (m.compile types options).index? id = some n ∧
        e = { name := Bytes.utf8 (exportName types (unitOf m options) f), function := n } := by
  obtain ⟨gas, hfunctions⟩ := functions_eq_compiled m types options
  have hexports : (m.compile types options).module.exports =
      (m.compile types options).functions.filterMap fun f =>
      if f.exported then f.index.map fun i => { name := Bytes.utf8 f.name, function := i }
        else none := rfl
  rw [hexports, Array.mem_filterMap]
  constructor
  · rintro ⟨cf, hmem, he⟩
    obtain ⟨id, hid⟩ := Array.getElem?_of_mem hmem
    rw [hfunctions] at hid
    obtain ⟨f, hf⟩ : ∃ f, m.functions[id]? = some f := by
      unfold compiledFunctions at hid
      rw [Array.getElem?_mapIdx] at hid
      obtain ⟨f, hf, -⟩ := Option.map_eq_some_iff.mp hid
      exact ⟨f, hf⟩
    obtain ⟨cf', hcf', hindex, hexported, hname⟩ :=
      getElem?_compiledFunctions (lowered m types options) types (unitOf m options) gas hf
    obtain rfl := Option.some.inj (hid.symm.trans hcf')
    split at he
    · rename_i hpublic
      obtain ⟨n, hn, rfl⟩ := Option.map_eq_some_iff.mp he
      obtain ⟨hcode, hpublic⟩ := hexported.mp hpublic
      obtain ⟨code, hcode⟩ := Option.isSome_iff_exists.mp hcode
      obtain ⟨f', hf', hincl, -⟩ := exists_function_of_code? hcode
      obtain rfl := Option.some.inj (hf.symm.trans hf')
      refine ⟨id, f, n, hf, hpublic, ?_, by rw [hname hincl]⟩
      rw [index?_compile, ← hindex, hn]
    · cases he
  · rintro ⟨id, f, n, hf, hpublic, hn, rfl⟩
    obtain ⟨cf, hcf, hindex, hexported, hname⟩ :=
      getElem?_compiledFunctions (lowered m types options) types (unitOf m options) gas hf
    rw [index?_compile] at hn
    obtain ⟨code, hcode, -⟩ := Option.map_eq_some_iff.mp hn
    obtain ⟨f', hf', hincl, -⟩ := exists_function_of_code? hcode
    obtain rfl := Option.some.inj (hf.symm.trans hf')
    refine ⟨cf, Array.mem_of_getElem? (hfunctions ▸ hcf), ?_⟩
    rw [if_pos (hexported.mpr ⟨by rw [hcode]; rfl, hpublic⟩), hindex, hn, hname hincl]
    rfl

/-- What calls and exports of a compiled module name is what was meant. -/
theorem links_compile (m : Ssa.Module) (types : TypePool) (options : CodegenOptions) :
    Links (m.compile types options) m types options where
  indices := filterMap_index_compile m types options
  bytecode id n hindex := by
    rw [index?_compile] at hindex
    obtain ⟨code, hcode, rfl⟩ := Option.map_eq_some_iff.mp hindex
    obtain ⟨f, hf, -, hlower, -⟩ := exists_function_of_code? hcode
    refine ⟨f, (lowered m types options).linkage, _, hf, getElem?_functions_compile hf hcode,
      by rw [hlower], ?_⟩
    exact namesTargets_assemble hf hcode
  exports _ := mem_exports_compile

/-- Functions are left out exactly as calls ask for. Before code is made, the functions that are
left out are the least set that holds those left out before and all callers of its members, and
there is a note for each that was added. The functions that are compiled are the greatest set whose
members are not left out, have code with which nothing is wrong and call only one another. They are
numbered one after the other, and calls, host calls and exports name what was meant. -/
theorem exclusion_exact (m : Ssa.Module) (types : TypePool) (options : CodegenOptions)
    (reason : String) :
    (IsLeast {s | m.excludedIds ⊆ s ∧ m.CallerClosed s}
      (m.excludeCallers reason).module.excludedIds ∧
      (m.excludeCallers reason).module.excludedCount =
        m.excludedCount + (m.excludeCallers reason).notes.length) ∧
    IsGreatest {s | SelfContained m types options s} (m.compile types options).okIds ∧
    Links (m.compile types options) m types options :=
  ⟨⟨m.isLeast_excludeCallers reason, (m.leavesOutCallers_excludeCallersRounds reason _).count⟩,
    isGreatest_okIds m types options, links_compile m types options⟩

end Modules

end Codegen

end ContractCompiler
