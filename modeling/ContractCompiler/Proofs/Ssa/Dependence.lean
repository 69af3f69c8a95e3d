import ContractCompiler.Proofs.Ssa.DefinedUses
import ContractCompiler.Proofs.Ssa.PassTyping

/-!
# What values depend on

A value depends on the operands of the instruction that defines it, and on what they depend on. In a
module without faults, what is used in a block depends on the parameters of a block only if every
path to the first passes the second. Passes keep this, although they do not keep modules without
faults.

- `Module.dataOf?`, `Module.siteOf?`: definitions of values;
- `Module.Depends`: a value depends on another;
- `Module.ReachesAround`: a path leads to a block that another one is not on;
- `Module.Guarded`: what is used in a block that is reached around another one does not depend on
  parameters of that one;
- `guarded_of_verify`: modules without faults are guarded;
- `Module.Shrinks`, `Guarded.shrinks`: leaving out edges, uses and operands keeps modules guarded;
- `shrinks_simplifyCfg`, `shrinks_constFold`, `shrinks_removeDeadCode`: what these passes do.
-/

namespace ContractCompiler.Ssa

open Relation

variable {m m' m'' : Module} {types : TypePool} {f : Function}

/-! ## Definitions -/

namespace Module

/-- What the instruction that defines a value computes. -/
def dataOf? (m : Module) (v : ValueId) : Option InstData := (m.definition? v).map (·.data)

/-- Where a value is defined. -/
def siteOf? (m : Module) (v : ValueId) : Option DefSite := (m.values[v]?).map (·.site)

theorem siteOf?_of_value {v : ValueId} {value : Value} {site : DefSite}
    (hvalue : m.values[v]? = some value) (hsite : value.site = site) : m.siteOf? v = some site := by
  unfold siteOf?
  rw [hvalue, Option.map_some, hsite]

theorem lt_of_siteOf? {v : ValueId} {site : DefSite} (h : m.siteOf? v = some site) :
    v < m.values.size := by
  obtain ⟨value, hvalue, -⟩ := Option.map_eq_some_iff.mp h
  exact (Array.getElem?_eq_some_iff.mp hvalue).1

/-- The first block of a function that is not left out. -/
def IsEntry (m : Module) (b : BlockId) : Prop :=
  ∃ f ∈ m.functions, f.excluded = false ∧ f.entry = some b

theorem dataOf?_eq_some {v : ValueId} {data : InstData} :
    m.dataOf? v = some data ↔
      ∃ i inst, m.siteOf? v = some (.inst i) ∧ m.insts[i]? = some inst ∧ inst.data = data := by
  unfold dataOf? siteOf?
  constructor
  · intro h
    obtain ⟨inst, hdef, rfl⟩ := Option.map_eq_some_iff.mp h
    obtain ⟨value, i, hvalue, hsite, hinst⟩ := exists_site_of_definition? hdef
    exact ⟨i, inst, by rw [hvalue, Option.map_some, hsite], hinst, rfl⟩
  · rintro ⟨i, inst, hsite, hinst, rfl⟩
    obtain ⟨value, hvalue, hsite⟩ := Option.map_eq_some_iff.mp hsite
    rw [definition?_of_site hvalue hsite, hinst, Option.map_some]

theorem definition?_of_dataOf? {v : ValueId} {data : InstData} (h : m.dataOf? v = some data) :
    ∃ inst, m.definition? v = some inst ∧ inst.data = data :=
  Option.map_eq_some_iff.mp h

/-- The definition of a value has another one as an operand. -/
def Uses (m : Module) (v w : ValueId) : Prop := ∃ data, m.dataOf? v = some data ∧ w ∈ data.operands

/-- A value is another one, or its definition has an operand that depends on that one. -/
def Depends (m : Module) : ValueId → ValueId → Prop := ReflTransGen m.Uses

theorem Depends.refl (m : Module) (v : ValueId) : m.Depends v v := ReflTransGen.refl

theorem Depends.trans {u v w : ValueId} (h : m.Depends u v) (h' : m.Depends v w) : m.Depends u w :=
  ReflTransGen.trans h h'

theorem Uses.depends {v w : ValueId} (h : m.Uses v w) : m.Depends v w := ReflTransGen.single h

/-- What is used in a block: the operands of its instructions and of its ending. -/
theorem mem_usesOfBlock {b : BlockId} {v : ValueId} : v ∈ m.usesOfBlock b ↔
    (∃ i ∈ (m.block b).insts, ∃ inst, m.insts[i]? = some inst ∧ v ∈ inst.data.operands) ∨
      ∃ term, (m.block b).term = some term ∧ v ∈ term.operands := by
  unfold usesOfBlock blockInsts
  simp only [List.mem_append, List.mem_flatMap, List.mem_filterMap, Option.map_eq_some_iff]
  refine or_congr ⟨?_, ?_⟩ ?_
  · rintro ⟨_, ⟨i, hi, inst, hinst, rfl⟩, hv⟩
    exact ⟨i, hi, inst, hinst, hv⟩
  · rintro ⟨i, hi, inst, hinst, hv⟩
    exact ⟨_, ⟨i, hi, inst, hinst, rfl⟩, hv⟩
  · cases (m.block b).term with
    | none => simp
    | some term => simp

/-! ## Paths around blocks -/

/-- A path from the entry of a function leads to a block. -/
def Reaches (m : Module) (f : Function) (b : BlockId) : Prop :=
  ∃ e, f.entry = some e ∧ Walk.Reach (m.cfg f).successors e b

/-- A path from the entry of a function leads to a block that another block is not on. -/
def ReachesAround (m : Module) (f : Function) (avoided b : BlockId) : Prop :=
  ∃ e, f.entry = some e ∧ e ≠ avoided ∧
    Walk.Reach (fun x => ((m.cfg f).successors x).filter (· != avoided)) e b

theorem ReachesAround.ne {avoided b : BlockId} (h : m.ReachesAround f avoided b) : b ≠ avoided := by
  obtain ⟨e, -, hne, hpath⟩ := h
  exact hpath.mem_of_closed (P := (· ≠ avoided)) hne fun x _ y hy =>
    bne_iff_ne.mp (List.mem_filter.mp hy).2

theorem ReachesAround.step {avoided b c : BlockId} (h : m.ReachesAround f avoided b)
    (hc : c ∈ (m.cfg f).successors b) (hne : c ≠ avoided) : m.ReachesAround f avoided c := by
  obtain ⟨e, he, hstart, hpath⟩ := h
  exact ⟨e, he, hstart, hpath.trans (.single (List.mem_filter.mpr ⟨hc, bne_iff_ne.mpr hne⟩))⟩

/-- What is reached around a block is reached. -/
theorem ReachesAround.reaches {avoided b : BlockId} (h : m.ReachesAround f avoided b) :
    m.Reaches f b := by
  obtain ⟨e, he, -, hpath⟩ := h
  exact ⟨e, he, hpath.mono fun _ _ hy => List.mem_of_mem_filter hy⟩

/-- The blocks that are reached are blocks of the function, if the entry is. -/
theorem Reaches.mem_blocks {e b : BlockId} (h : m.Reaches f b) (hmem : e ∈ f.blocks)
    (hentry : f.entry = some e) : b ∈ f.blocks := by
  obtain ⟨e', he', hpath⟩ := h
  obtain rfl := Option.some.inj (hentry.symm.trans he')
  exact hpath.mem_of_closed (P := (· ∈ f.blocks)) hmem
    fun _ _ _ hy => (mem_successors_cfg.mp hy).2.1

/-- A path around one block leads to another one, or is a path around that one as well. -/
theorem ReachesAround.or_around {avoided b c : BlockId} (h : m.ReachesAround f avoided b) :
    m.ReachesAround f avoided c ∨ m.ReachesAround f c b := by
  obtain ⟨e, he, hne, hpath⟩ := h
  by_cases hec : e = c
  · exact .inl (hec ▸ ⟨e, he, hne, .refl e⟩)
  · induction hpath with
    | refl => exact .inr ⟨e, he, hec, .refl e⟩
    | @tail x y hx hy ih =>
      rcases ih with hreach | hreach
      · exact .inl hreach
      · by_cases hyc : y = c
        · exact .inl (hyc ▸ ⟨e, he, hne, hx.tail hy⟩)
        · exact .inr (hreach.step (List.mem_of_mem_filter hy) hyc)

/-- A block that is reached, but not around another one, is behind the other one. -/
theorem Reaches.of_not_around {avoided b : BlockId} (h : m.Reaches f b)
    (hnot : ¬m.ReachesAround f avoided b) : m.Reaches f avoided := by
  obtain ⟨e, he, hpath⟩ := h
  by_cases hne : e = avoided
  · exact ⟨e, he, hne ▸ .refl e⟩
  · obtain ⟨x, y, hx, hax, hy, hay⟩ := hpath.exists_exit (P := fun x => m.ReachesAround f avoided x)
      ⟨e, he, hne, .refl e⟩ hnot
    have heq : y = avoided := by
      by_contra hyne
      exact hay (hax.step hy hyne)
    exact ⟨e, he, heq ▸ hx.trans (.single hy)⟩

/-- A block that is reached and is not the first has an edge from a block that is reached around
it. -/
theorem exists_edge_around {e b : BlockId} (he : f.entry = some e) (h : m.Reaches f b)
    (hne : e ≠ b) :
    ∃ p, m.ReachesAround f b p ∧ b ∈ (m.cfg f).successors p := by
  obtain ⟨e', he', hpath⟩ := h
  obtain rfl := Option.some.inj (he.symm.trans he')
  obtain ⟨p, y, -, hp, hy, hyb⟩ := hpath.exists_exit (P := fun x => m.ReachesAround f b x)
    ⟨e, he, hne, .refl e⟩ fun hb => hb.ne rfl
  refine ⟨p, hp, ?_⟩
  by_cases heq : y = b
  · exact heq ▸ hy
  · exact absurd (hp.step hy heq) hyb

/-! ## Guarded modules -/

/-- A value that depends only on values that there are, none of them a parameter of a block. -/
def Clear (m : Module) (avoided : BlockId) (v : ValueId) : Prop :=
  ∀ u, m.Depends v u → u < m.values.size ∧ ∀ index, m.siteOf? u ≠ some (.param avoided index)

theorem Clear.depends {avoided : BlockId} {v w : ValueId} (h : m.Clear avoided v)
    (hvw : m.Depends v w) :
    m.Clear avoided w :=
  fun u hu => h u (hvw.trans hu)

/-- What is used in a block that is reached around another one, which is not the first of a
function, does not depend on parameters of that one. -/
def Guarded (m : Module) : Prop :=
  ∀ f ∈ m.functions, f.excluded = false → ∀ avoided b, ¬m.IsEntry avoided →
    m.ReachesAround f avoided b →
    ∀ v ∈ m.usesOfBlock b, m.Clear avoided v

/-- What remains of a module without faults while passes change it. -/
structure Orderly (m : Module) : Prop where
  guarded : m.Guarded
  entry : ∀ f ∈ m.functions, f.excluded = false → ∃ e ∈ f.blocks, f.entry = some e
  blocks_lt : ∀ f ∈ m.functions, f.excluded = false → ∀ b ∈ f.blocks, b < m.blocks.size
  /-- Parameters of functions know where they are defined. -/
  params : ∀ f ∈ m.functions, f.excluded = false → ∀ e, f.entry = some e →
    ∀ p ∈ (m.block e).params, ∃ index, m.siteOf? p = some (.param e index)
  /-- The instructions of the blocks are there. -/
  insts : ∀ f ∈ m.functions, f.excluded = false → ∀ b ∈ f.blocks, ∀ i ∈ (m.block b).insts,
    i < m.insts.size

end Module

/-! ### Modules without faults -/

section Verified

variable (hf : f.Verified m)

include hf

theorem Function.Verified.siteOf?_result {b : BlockId} (hb : b ∈ f.blocks) {i : InstId}
    (hi : i ∈ (m.block b).insts) {inst : Inst} (hinst : m.insts[i]? = some inst) {r : ValueId}
    (hr : inst.result = some r) : m.siteOf? r = some (.inst i) := by
  obtain ⟨value, hvalue, hsite⟩ := hf.result_site b hb i hi inst r hinst hr
  exact Module.siteOf?_of_value hvalue hsite

theorem Function.Verified.siteOf?_param {b : BlockId} (hb : b ∈ f.blocks) {p : ValueId}
    (hp : p ∈ (m.block b).params) : ∃ index, m.siteOf? p = some (.param b index) := by
  obtain ⟨k, hk⟩ := List.mem_iff_getElem?.mp hp
  obtain ⟨value, hvalue, hsite⟩ := hf.param_site b hb k p hk
  exact ⟨k, Module.siteOf?_of_value hvalue hsite⟩

/-- What is available in a block is defined in a block that is reached around the same blocks. -/
theorem exists_definition_of_available {avoided b : BlockId} {k : Nat} {v : ValueId}
    (hb : m.ReachesAround f avoided b)
    (hv : isAvailable (m.cfg f).dominance (m.definitions f).2 b k v = true) :
    ∃ d : Definition, .ok d ∈ blockDefinitions m d.block ∧ d.value = v ∧ d.block ∈ f.blocks ∧
      m.ReachesAround f avoided d.block := by
  obtain ⟨e, hmem, hentry⟩ := hf.entry
  unfold isAvailable at hv
  split at hv
  · cases hv
  · rename_i d hd
    obtain ⟨hdef, hvalue⟩ := mem_of_definition hd
    have haround : m.ReachesAround f avoided d.block := by
      by_cases heq : d.block = b
      · exact heq ▸ hb
      · rw [if_neg heq] at hv
        obtain ⟨-, -, -, havoid⟩ := (dominates_iff hentry hf.blocks_lt hmem heq).mp hv
        rcases hb.or_around (c := d.block) with hreach | ⟨e', he', hne', hpath⟩
        · exact hreach
        · obtain rfl := Option.some.inj (hentry.symm.trans he')
          exact absurd ⟨hne', hpath⟩ havoid
    exact ⟨d, hdef, hvalue, haround.reaches.mem_blocks hmem hentry, haround⟩

/-- Where a definition of a block says that its value is defined. -/
theorem siteOf?_of_blockDefinitions {d : Definition} (hd : .ok d ∈ blockDefinitions m d.block)
    (hb : d.block ∈ f.blocks) : d.value < m.values.size ∧
      ((∃ index, m.siteOf? d.value = some (.param d.block index)) ∨
        ∃ (k : Nat) (i : InstId) (inst : Inst), (m.block d.block).insts[k]? = some i ∧
          m.insts[i]? = some inst ∧ m.siteOf? d.value = some (.inst i)) := by
  rcases (definition_of_block hd).2 with ⟨-, hparam⟩ | ⟨k, i, inst, -, hi, hinst, hr⟩
  · obtain ⟨index, hsite⟩ := hf.siteOf?_param hb hparam
    exact ⟨Module.lt_of_siteOf? hsite, .inl ⟨index, hsite⟩⟩
  · have hsite := hf.siteOf?_result hb (List.mem_of_getElem? hi) hinst hr
    exact ⟨Module.lt_of_siteOf? hsite, .inr ⟨k, i, inst, hi, hinst, hsite⟩⟩

/-- What an available value depends on is available in a block that is reached around the same
blocks. -/
theorem exists_available_of_depends {avoided b : BlockId} {k : Nat} {v u : ValueId}
    (hdepends : m.Depends v u) (hb : m.ReachesAround f avoided b)
    (hv : isAvailable (m.cfg f).dominance (m.definitions f).2 b k v = true) :
    ∃ b' k', m.ReachesAround f avoided b' ∧
      isAvailable (m.cfg f).dominance (m.definitions f).2 b' k' u = true := by
  obtain ⟨e, hmem, hentry⟩ := hf.entry
  induction hdepends using ReflTransGen.head_induction_on generalizing b k with
  | refl => exact ⟨b, k, hb, hv⟩
  | @head v w huses _ ih =>
    obtain ⟨data, hdata, hw⟩ := huses
    obtain ⟨i, inst, hsite, hinst, rfl⟩ := Module.dataOf?_eq_some.mp hdata
    obtain ⟨d, hdef, rfl, howned, haround⟩ := exists_definition_of_available hf hb hv
    obtain ⟨e', he', hpath⟩ := haround.reaches
    obtain rfl := Option.some.inj (hentry.symm.trans he')
    have hreached := (isReached_iff hentry (hf.blocks_lt e hmem)).mpr hpath
    rcases (siteOf?_of_blockDefinitions hf hdef howned).2 with
      ⟨index, hparam⟩ | ⟨j, i', inst', hi', hinst', hsite'⟩
    · cases hsite.symm.trans hparam
    · cases hsite.symm.trans hsite'
      obtain rfl := Option.some.inj (hinst.symm.trans hinst')
      exact ih haround (hf.inst_uses d.block howned hreached j i inst hi' hinst w hw)

/-- What is available in a block that is reached around another one does not depend on parameters of
that one. -/
theorem clear_of_available {avoided b : BlockId} {k : Nat} {v : ValueId}
    (hb : m.ReachesAround f avoided b)
    (hv : isAvailable (m.cfg f).dominance (m.definitions f).2 b k v = true) :
    m.Clear avoided v := by
  intro u hdepends
  obtain ⟨b', k', hb', hu⟩ := exists_available_of_depends hf hdepends hb hv
  obtain ⟨d, hdef, rfl, howned, haround⟩ := exists_definition_of_available hf hb' hu
  obtain ⟨hlt, hsite⟩ := siteOf?_of_blockDefinitions hf hdef howned
  refine ⟨hlt, fun index hparam => ?_⟩
  rcases hsite with ⟨_, hsite⟩ | ⟨_, _, _, -, -, hsite⟩
  · cases hsite.symm.trans hparam
    exact haround.ne rfl
  · cases hsite.symm.trans hparam

end Verified

/-- Modules without faults are orderly. -/
theorem orderly_of_verify (h : m.verify = []) : m.Orderly := by
  have hverified : ∀ f ∈ m.functions, f.excluded = false → f.Verified m := by
    intro f hf hincl
    obtain ⟨id, hid⟩ := Array.mem_iff_getElem?.mp hf
    exact Module.verified_of_verify h hid hincl
  refine ⟨fun f hf hincl avoided b _ hb v hv => ?_, fun f hf hincl => (hverified f hf hincl).entry,
    fun f hf hincl => (hverified f hf hincl).blocks_lt, fun f hf hincl e he p hp => ?_,
    fun f hf hincl b hb i hi => ?_⟩
  · have hfun := hverified f hf hincl
    obtain ⟨e, hmem, hentry⟩ := hfun.entry
    have howned := hb.reaches.mem_blocks hmem hentry
    obtain ⟨e', he', hpath⟩ := hb.reaches
    obtain rfl := Option.some.inj (hentry.symm.trans he')
    have hreached := (isReached_iff hentry (hfun.blocks_lt e hmem)).mpr hpath
    rcases Module.mem_usesOfBlock.mp hv with ⟨i, hi, inst, hinst, hv⟩ | ⟨term, hterm, hv⟩
    · obtain ⟨k, hk⟩ := List.mem_iff_getElem?.mp hi
      exact clear_of_available hfun hb (hfun.inst_uses b howned hreached k i inst hk hinst v hv)
    · exact clear_of_available hfun hb (hfun.term_uses b howned hreached term hterm v hv)
  · have hfun := hverified f hf hincl
    obtain ⟨e', hmem, hentry⟩ := hfun.entry
    obtain rfl := Option.some.inj (hentry.symm.trans he)
    exact hfun.siteOf?_param hmem hp
  · obtain ⟨inst, hinst⟩ := (hverified f hf hincl).insts b hb i hi
    exact (Array.getElem?_eq_some_iff.mp hinst).1

/-! ## Leaving out -/

/-- A function that has at most the blocks of another one, among them the first, and its
annotations. -/
structure Function.Trims (f g : Function) : Prop where
  attrs : g.attrs = f.attrs
  excluded : g.excluded = f.excluded
  entry : g.entry = f.entry
  blocks : g.blocks ⊆ f.blocks
  mem_entry : ∀ e ∈ f.blocks, f.entry = some e → e ∈ g.blocks

theorem Function.Trims.refl (f : Function) : f.Trims f :=
  ⟨rfl, rfl, rfl, List.Subset.refl _, fun _ he _ => he⟩

theorem Function.Trims.trans {f g h : Function} (hfg : f.Trims g) (hgh : g.Trims h) : f.Trims h :=
  ⟨hgh.attrs.trans hfg.attrs, hgh.excluded.trans hfg.excluded, hgh.entry.trans hfg.entry,
    List.Subset.trans hgh.blocks hfg.blocks,
    fun e he hentry => hgh.mem_entry e (hfg.mem_entry e he hentry) (hfg.entry.trans hentry)⟩

namespace Module

/-- The functions of a module have at most the blocks of those of another one. -/
def Trims (m m' : Module) :
    Prop := ∀ id : FuncId, Option.Rel Function.Trims m.functions[id]? m'.functions[id]?

theorem Trims.of_eq (h : m'.functions = m.functions) : m.Trims m' := by
  intro id
  rw [h]
  exact Option.rel_refl_of Function.Trims.refl _

theorem Trims.of_some (h : m.Trims m') {id : FuncId} {g : Function}
    (hg : m'.functions[id]? = some g) :
    ∃ f, m.functions[id]? = some f ∧ f.Trims g := by
  have hrel := h id
  rw [hg] at hrel
  cases hf : m.functions[id]? with
  | none =>
    rw [hf] at hrel
    cases hrel
  | some f =>
    rw [hf] at hrel
    cases hrel with
    | some htrims => exact ⟨f, rfl, htrims⟩

theorem Trims.exists_trimmed (h : m.Trims m') {id : FuncId} (hf : m.functions[id]? = some f) :
    ∃ g, m'.functions[id]? = some g ∧ f.Trims g := by
  have hrel := h id
  rw [hf] at hrel
  cases hg : m'.functions[id]? with
  | none =>
    rw [hg] at hrel
    cases hrel
  | some g =>
    rw [hg] at hrel
    cases hrel with
    | some htrims => exact ⟨g, rfl, htrims⟩

theorem Trims.of_mem (h : m.Trims m') {g : Function} (hg : g ∈ m'.functions) :
    ∃ f ∈ m.functions, f.Trims g := by
  obtain ⟨id, hid⟩ := Array.mem_iff_getElem?.mp hg
  obtain ⟨f, hf, htrims⟩ := h.of_some hid
  exact ⟨f, Array.mem_of_getElem? hf, htrims⟩

theorem Trims.trans (h : m.Trims m') (h' : m'.Trims m'') : m.Trims m'' := by
  intro id
  have hf := h id
  have hf' := h' id
  revert hf hf'
  generalize m.functions[id]? = f, m'.functions[id]? = f', m''.functions[id]? = f''
  intro hf hf'
  cases hf with
  | none => exact hf'
  | some hfg =>
    cases hf' with
    | some hgh => exact .some (hfg.trans hgh)

/-- The same blocks are the first ones of functions. -/
theorem Trims.isEntry_iff (h : m.Trims m') {b : BlockId} : m'.IsEntry b ↔ m.IsEntry b := by
  constructor
  · rintro ⟨g, hg, hincl, hentry⟩
    obtain ⟨f, hf, htrims⟩ := h.of_mem hg
    exact ⟨f, hf, htrims.excluded.symm.trans hincl, htrims.entry.symm.trans hentry⟩
  · rintro ⟨f, hf, hincl, hentry⟩
    obtain ⟨id, hid⟩ := Array.mem_iff_getElem?.mp hf
    obtain ⟨g, hg, htrims⟩ := h.exists_trimmed hid
    exact ⟨g, Array.mem_of_getElem? hg, htrims.excluded.trans hincl, htrims.entry.trans hentry⟩

/-- A module with the same values, parameters and number of instructions, and fewer blocks, edges
and uses. What is used, or is an operand of a definition, was so before, or something that depends
on it was. -/
structure Shrinks (m m' : Module) : Prop where
  trims : m.Trims m'
  size : m'.blocks.size = m.blocks.size
  values : m'.values = m.values
  insts_size : m'.insts.size = m.insts.size
  params : ∀ b, (m'.block b).params = (m.block b).params
  insts : ∀ b, (m'.block b).insts ⊆ (m.block b).insts
  successors : ∀ b, (m'.block b).successors ⊆ (m.block b).successors
  uses : ∀ b, ∀ v ∈ m'.usesOfBlock b, ∃ u ∈ m.usesOfBlock b, m.Depends u v
  operands : ∀ v w, m'.Uses v w → m.Depends v w

namespace Shrinks

theorem depends (h : m.Shrinks m') {v w : ValueId} (hvw : m'.Depends v w) : m.Depends v w := by
  induction hvw with
  | refl => exact .refl m v
  | tail _ huses ih => exact ih.trans (h.operands _ _ huses)

theorem siteOf?_eq (h : m.Shrinks m') (v : ValueId) : m'.siteOf? v = m.siteOf? v := by
  unfold siteOf?
  rw [h.values]

theorem successors_cfg (h : m.Shrinks m') {g : Function} (htrims : f.Trims g) (b : BlockId) :
    (m'.cfg g).successors b ⊆ (m.cfg f).successors b := by
  intro c hc
  obtain ⟨hsucc, hmem, hlt⟩ := mem_successors_cfg.mp hc
  exact mem_successors_cfg.mpr ⟨h.successors b hsucc, htrims.blocks hmem, h.size ▸ hlt⟩

theorem reachesAround (h : m.Shrinks m') {g : Function} (htrims : f.Trims g) {avoided b : BlockId}
    (hb : m'.ReachesAround g avoided b) : m.ReachesAround f avoided b := by
  obtain ⟨e, he, hne, hpath⟩ := hb
  refine ⟨e, htrims.entry ▸ he, hne, hpath.mono fun x y hy => ?_⟩
  obtain ⟨hsucc, havoid⟩ := List.mem_filter.mp hy
  exact List.mem_filter.mpr ⟨h.successors_cfg htrims x hsucc, havoid⟩

theorem clear (h : m.Shrinks m') {avoided : BlockId} {v : ValueId} (hv : m.Clear avoided v) :
    m'.Clear avoided v := by
  intro u hu
  rw [h.values, h.siteOf?_eq]
  exact hv u (h.depends hu)

/-- Leaving out edges and uses keeps modules orderly. -/
theorem orderly (h : m.Shrinks m') (hm : m.Orderly) : m'.Orderly := by
  refine ⟨fun g hg hincl avoided b hinner hb v hv => ?_, fun g hg hincl => ?_,
    fun g hg hincl b hb => ?_,
    fun g hg hincl e he p hp => ?_, fun g hg hincl b hb i hi => ?_⟩
  all_goals
    obtain ⟨f, hf, htrims⟩ := h.trims.of_mem hg
    have hlive : f.excluded = false := htrims.excluded.symm.trans hincl
  · obtain ⟨u, hu, huv⟩ := h.uses b v hv
    have hclear := hm.guarded f hf hlive avoided b
        (fun hentry => hinner (h.trims.isEntry_iff.mpr hentry)) (h.reachesAround htrims hb) u hu
    exact h.clear (hclear.depends huv)
  · obtain ⟨e, hmem, hentry⟩ := hm.entry f hf hlive
    exact ⟨e, htrims.mem_entry e hmem hentry, htrims.entry.trans hentry⟩
  · rw [h.size]
    exact hm.blocks_lt f hf hlive b (htrims.blocks hb)
  · rw [h.params] at hp
    rw [h.siteOf?_eq]
    exact hm.params f hf hlive e (htrims.entry.symm.trans he) p hp
  · rw [h.insts_size]
    exact hm.insts f hf hlive b (htrims.blocks hb) i (h.insts b hi)

end Shrinks

end Module

/-! ### Blocks -/

/-- An ending with at most the edges of another one. -/
def Terminator.Within (t t' : Terminator) : Prop :=
  t'.operands ⊆ t.operands ∧ ∀ b, t'.argsTo b ⊆ t.argsTo b

theorem Terminator.Within.refl (t : Terminator) : t.Within t :=
  ⟨List.Subset.refl _, fun _ => List.Subset.refl _⟩

/-- A branch becomes a jump along one of its edges. -/
theorem within_simplifyBranch {t term : Terminator} {folded : Bool}
    (h : simplifyBranch m t = some (term, folded)) : t.Within term := by
  unfold simplifyBranch at h
  split at h
  · rename_i cond tb targs eb eargs
    have hthen : (Terminator.branch cond tb targs eb eargs).Within (.jump tb targs) :=
      ⟨fun v hv => List.mem_cons_of_mem _ (List.mem_append_left _ hv), fun b args hargs =>
        List.mem_append_left _ hargs⟩
    have helse : (Terminator.branch cond tb targs eb eargs).Within (.jump eb eargs) :=
      ⟨fun v hv => List.mem_cons_of_mem _ (List.mem_append_right _ hv), fun b args hargs =>
        List.mem_append_right _ hargs⟩
    split at h
    · obtain ⟨rfl, -⟩ := Prod.mk.inj (Option.some.inj h)
      split
      · exact hthen
      · exact helse
    · split at h
      · obtain ⟨rfl, -⟩ := Prod.mk.inj (Option.some.inj h)
        exact hthen
      · cases h
  · cases h

theorem mem_operands_of_argsTo {t : Terminator} {b : BlockId} {args : List ValueId}
    (hargs : args ∈ t.argsTo b) {v : ValueId} (hv : v ∈ args) : v ∈ t.operands := by
  cases t with
  | jump target targs =>
    simp only [Terminator.argsTo] at hargs
    split at hargs
    · exact List.mem_singleton.mp hargs ▸ hv
    · cases hargs
  | branch cond tb targs eb eargs =>
    rcases List.mem_append.mp hargs with hargs | hargs
    · split at hargs
      · exact List.mem_cons_of_mem _ (List.mem_append_left _ (List.mem_singleton.mp hargs ▸ hv))
      · cases hargs
    · split at hargs
      · exact List.mem_cons_of_mem _ (List.mem_append_right _ (List.mem_singleton.mp hargs ▸ hv))
      · cases hargs
  | _ => cases hargs

theorem Terminator.Within.successors {t t' : Terminator} (h : t.Within t') :
    t'.successors ⊆ t.successors := by
  intro b hb
  obtain ⟨args, hargs⟩ := exists_argsTo_of_mem_successors hb
  exact mem_successors_of_argsTo (h.2 b hargs)

/-- A block with at most the instructions and edges of another one. -/
structure Block.Within (b b' : Block) : Prop where
  params : b'.params = b.params
  insts : b'.insts ⊆ b.insts
  term : Option.Rel Terminator.Within b.term b'.term

theorem Block.Within.refl (b : Block) : b.Within b :=
  ⟨rfl, List.Subset.refl _, Option.rel_refl_of Terminator.Within.refl _⟩

theorem Block.Within.of_term {b b' : Block} (h : b.Within b') {term' : Terminator}
    (hterm : b'.term = some term') : ∃ term, b.term = some term ∧ term.Within term' := by
  have hrel := h.term
  rw [hterm] at hrel
  cases ht : b.term with
  | none =>
    rw [ht] at hrel
    cases hrel
  | some term =>
    rw [ht] at hrel
    cases hrel with
    | some hwithin => exact ⟨term, rfl, hwithin⟩

/-- A module with the same instructions and values, and at most the blocks, instructions of blocks
and edges of another one. -/
structure Module.Prunes (m m' : Module) : Prop where
  trims : m.Trims m'
  unit : m'.unit = m.unit
  insts : m'.insts = m.insts
  values : m'.values = m.values
  size : m'.blocks.size = m.blocks.size
  block : ∀ b, (m.block b).Within (m'.block b)

namespace Module.Prunes

theorem refl (m : Module) : m.Prunes m := ⟨.of_eq rfl, rfl, rfl, rfl, rfl, fun _ => .refl _⟩

theorem trans (h : m.Prunes m') (h' : m'.Prunes m'') : m.Prunes m'' := by
  refine ⟨h.trims.trans h'.trims, h'.unit.trans h.unit, h'.insts.trans h.insts,
    h'.values.trans h.values,
    h'.size.trans h.size, fun b => ⟨(h'.block b).params.trans (h.block b).params,
      List.Subset.trans (h'.block b).insts (h.block b).insts, ?_⟩⟩
  have ht := (h.block b).term
  have ht' := (h'.block b).term
  revert ht ht'
  generalize (m.block b).term = t, (m'.block b).term = t', (m''.block b).term = t''
  intro ht ht'
  cases ht with
  | none => exact ht'
  | some hwithin =>
    cases ht' with
    | some hwithin' =>
      exact .some ⟨List.Subset.trans hwithin'.1 hwithin.1,
        fun b => List.Subset.trans (hwithin'.2 b) (hwithin.2 b)⟩

theorem dataOf?_eq (h : m.Prunes m') (v : ValueId) : m'.dataOf? v = m.dataOf? v := by
  unfold dataOf? definition?
  rw [h.insts, h.values]

theorem shrinks (h : m.Prunes m') : m.Shrinks m' := by
  refine ⟨h.trims, h.size, h.values, congrArg Array.size h.insts, fun b => (h.block b).params,
    fun b => (h.block b).insts, fun b c hc => ?_, fun b v hv => ⟨v, ?_, .refl m v⟩,
    fun v w huses => ?_⟩
  · unfold Block.successors at hc ⊢
    cases hterm : (m'.block b).term with
    | none =>
      rw [hterm] at hc
      cases hc
    | some term' =>
      obtain ⟨term, ht, hwithin⟩ := (h.block b).of_term hterm
      rw [hterm] at hc
      rw [ht]
      exact hwithin.successors hc
  · rw [mem_usesOfBlock] at hv ⊢
    rcases hv with ⟨i, hi, inst, hinst, hv⟩ | ⟨term', hterm, hv⟩
    · exact .inl ⟨i, (h.block b).insts hi, inst, h.insts ▸ hinst, hv⟩
    · obtain ⟨term, ht, hwithin⟩ := (h.block b).of_term hterm
      exact .inr ⟨term, ht, hwithin.1 hv⟩
  · obtain ⟨data, hdata, hw⟩ := huses
    rw [h.dataOf?_eq] at hdata
    exact Uses.depends ⟨data, hdata, hw⟩

end Module.Prunes

theorem prunes_modify (m : Module) (b : BlockId) {f : Block → Block} (counts : PassCounts)
    (h : (m.block b).Within (f (m.block b))) :
    m.Prunes { m with blocks := m.blocks.modify b f, counts } := by
  refine ⟨.of_eq rfl, rfl, rfl, rfl, Array.size_modify, fun k => ?_⟩
  rcases getD_modify_cases m.blocks b f k with heq | ⟨rfl, heq⟩
  · show (m.block k).Within ((m.blocks.modify b f).getD k {})
    rw [heq]
    exact .refl _
  · show (m.block k).Within ((m.blocks.modify k f).getD k {})
    rw [heq]
    exact h

theorem prunes_simplifyBlock (m : Module) (b : BlockId) : m.Prunes (m.simplifyBlock b).1 := by
  unfold Module.simplifyBlock
  split
  · exact .refl m
  · rename_i term folded hterm
    obtain ⟨t, ht, hsimple⟩ := Option.bind_eq_some_iff.mp hterm
    refine prunes_modify m b _ ⟨rfl, List.Subset.refl _, ?_⟩
    rw [ht]
    exact .some (within_simplifyBranch hsimple)

theorem prunes_simplifyBlocks (bs : List BlockId) (m : Module) :
    m.Prunes (Module.simplifyBlocks bs m).1 := by
  induction bs generalizing m with
  | nil => exact .refl m
  | cons b bs ih => exact (prunes_simplifyBlock m b).trans (ih _)

theorem trims_dropUnreachable (m : Module) (f : Function) : f.Trims (m.dropUnreachable f) := by
  unfold Module.dropUnreachable
  dsimp only
  split
  · exact .refl f
  · rename_i hlive
    refine ⟨rfl, rfl, rfl, fun _ hb => List.mem_of_mem_filter hb, fun e he hentry => ?_⟩
    refine List.mem_filter.mpr ⟨he, ?_⟩
    have hlt : e < m.blocks.size := by
      by_contra hge
      refine hlive (Bool.or_eq_true_iff.mpr (.inr (Option.isNone_iff_eq_none.mpr ?_)))
      show f.entry.filter _ = none
      rw [hentry, Option.filter_some, if_neg (by simpa using hge)]
    exact (isReached_iff hentry hlt).mpr (.refl e)

/-- Simplifying control flow only leaves out. -/
theorem prunes_simplifyCfg (m : Module) : m.Prunes m.simplifyCfg.1 := by
  refine (prunes_simplifyBlocks _ m).trans ⟨fun id => ?_, rfl, rfl, rfl, rfl, fun _ => .refl _⟩
  show Option.Rel _ _ ((m.simplifyBlocks (m.functions.toList.flatMap (·.blocks))).1.functions.map
    _)[id]?
  rw [Array.getElem?_map]
  cases ((m.simplifyBlocks (m.functions.toList.flatMap (·.blocks))).1.functions)[id]? with
  | none => exact .none
  | some f => exact .some (trims_dropUnreachable _ f)

theorem prunes_pruneBlocks (uses : Array Nat) (bs : List BlockId) (m : Module) :
    m.Prunes (Module.pruneBlocks uses bs m) := by
  induction bs generalizing m with
  | nil => exact .refl m
  | cons b bs ih =>
    unfold Module.pruneBlocks
    refine Module.Prunes.trans ?_ (ih _)
    exact prunes_modify m b _ ⟨rfl, fun _ hi => List.mem_of_mem_filter hi,
      Option.rel_refl_of Terminator.Within.refl _⟩

theorem prunes_pruneRounds (n : Nat) (m : Module) (changed : Bool) :
    m.Prunes (m.pruneRounds n changed).1 := by
  induction n generalizing m changed with
  | zero => exact .refl m
  | succ n ih =>
    unfold Module.pruneRounds
    dsimp only
    split
    · exact .refl m
    · exact (prunes_pruneBlocks _ _ m).trans (ih _ _)

/-- Taking out dead code only leaves out. -/
theorem prunes_removeDeadCode (m : Module) : m.Prunes m.removeDeadCode.1 :=
  prunes_pruneRounds _ m false

end ContractCompiler.Ssa
