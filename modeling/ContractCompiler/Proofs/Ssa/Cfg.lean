import ContractCompiler.Ssa.Cfg
import Mathlib.Tactic.Tauto

/-!
# Edges of a control flow graph

Which blocks `Cfg.successors` and `Cfg.predecessors` list.

- `Module.Edge`: an edge between blocks of a function;
- `Module.mem_ownedBlocks`, `Module.mem_successors_cfg`: the marked blocks, and the successors among
  them;
- `Cfg.mem_predecessors`: a block is listed as a predecessor exactly for its successors.
-/

namespace ContractCompiler.Ssa

/-! ## Blocks of a function -/

theorem getD_foldl_set (bs : List BlockId) (s : BlockId) : ∀ (owned : Array Bool),
    (bs.foldl (fun owned b => owned.setIfInBounds b true) owned).getD s false = true ↔
      owned.getD s false = true ∨ (s ∈ bs ∧ s < owned.size) := by
  induction bs with
  | nil => simp
  | cons b bs ih =>
    intro owned
    rw [List.foldl_cons, ih, Array.size_setIfInBounds, List.mem_cons]
    have hset : (owned.setIfInBounds b true).getD s false = true ↔
        owned.getD s false = true ∨ (s = b ∧ s < owned.size) := by
      simp only [Array.getD_eq_getD_getElem?, Array.getElem?_setIfInBounds]
      by_cases hsb : b = s
      · subst hsb
        by_cases hlt : b < owned.size
        · simp [hlt]
        · simp [hlt]
      · have hne : ¬s = b := fun heq => hsb heq.symm
        simp [hsb, hne]
    rw [hset]
    tauto

/-- The blocks that are marked for a function are those that it lists, of those that there are. -/
theorem Module.mem_ownedBlocks {m : Module} {f : Function} {s : BlockId} :
    (m.ownedBlocks f).getD s false = true ↔ s ∈ f.blocks ∧ s < m.blocks.size := by
  unfold Module.ownedBlocks
  rw [getD_foldl_set, Array.size_replicate]
  have hnone : (Array.replicate m.blocks.size false).getD s false = false := by
    simp only [Array.getD_eq_getD_getElem?, Array.getElem?_replicate]
    split <;> rfl
  simp [hnone]

/-- The edges of a function: from a block to a successor that is a block of the function. -/
def Module.Edge (m : Module) (f : Function) (b target : BlockId) : Prop :=
  target ∈ (m.block b).successors ∧ target ∈ f.blocks ∧ target < m.blocks.size

instance (m : Module) (f : Function) (b target : BlockId) : Decidable (m.Edge f b target) :=
  inferInstanceAs (Decidable (_ ∧ _ ∧ _))

theorem Module.successors_cfg (m : Module) (f : Function) : (m.cfg f).successors =
    fun b => (m.block b).successors.filter fun s => (m.ownedBlocks f).getD s false := by
  funext b
  unfold Cfg.successors Module.cfg Module.block
  simp only [Array.getD_eq_getD_getElem?, Array.getElem?_map]
  cases m.blocks[b]? <;> rfl

theorem Module.mem_successors_cfg {m : Module} {f : Function} {b s : BlockId} :
    s ∈ (m.cfg f).successors b ↔
      s ∈ (m.block b).successors ∧ s ∈ f.blocks ∧ s < m.blocks.size := by
  rw [Module.successors_cfg, List.mem_filter, Module.mem_ownedBlocks]

/-! ## Predecessors -/

namespace Cfg

theorem size_foldl_modify (b : BlockId) (ss : List BlockId) : ∀ (preds : Array (List BlockId)),
    (ss.foldl (fun preds s => preds.modify s (· ++ [b])) preds).size = preds.size := by
  induction ss with
  | nil => exact fun _ => rfl
  | cons s ss ih =>
    intro preds
    rw [List.foldl_cons, ih, Array.size_modify]

theorem mem_foldl_modify (a b s : BlockId) (ss : List BlockId) : ∀ (preds : Array (List BlockId)),
    a ∈ (ss.foldl (fun preds s => preds.modify s (· ++ [b])) preds).getD s [] ↔
      a ∈ preds.getD s [] ∨ (a = b ∧ s ∈ ss ∧ s < preds.size) := by
  induction ss with
  | nil => simp
  | cons t ss ih =>
    intro preds
    rw [List.foldl_cons, ih, Array.size_modify, List.mem_cons]
    have hmodify : a ∈ (preds.modify t (· ++ [b])).getD s [] ↔
        a ∈ preds.getD s [] ∨ (a = b ∧ s = t ∧ s < preds.size) := by
      simp only [Array.getD_eq_getD_getElem?, Array.getElem?_modify]
      by_cases hts : t = s
      · subst hts
        by_cases hlt : t < preds.size
        · simp [hlt]
        · simp [hlt]
      · have hne : ¬s = t := fun heq => hts heq.symm
        simp [hts, hne]
    rw [hmodify]
    tauto

theorem size_predecessors (g : Cfg) : g.predecessors.size = g.size := by
  unfold predecessors
  suffices h : ∀ (bs : List BlockId) (preds : Array (List BlockId)),
      (bs.foldl (fun preds b =>
        (g.successors b).foldl (fun preds s => preds.modify s (· ++ [b])) preds) preds).size
        = preds.size by
    rw [h, Array.size_replicate]
  intro bs
  induction bs with
  | nil => exact fun _ => rfl
  | cons b bs ih =>
    intro preds
    rw [List.foldl_cons, ih, size_foldl_modify]

/-- The predecessors of a block are the blocks of the function that have an edge to it. -/
theorem mem_predecessors {g : Cfg} {a s : BlockId} :
    a ∈ g.predecessors.getD s [] ↔ a ∈ g.blocks ∧ s ∈ g.successors a ∧ s < g.size := by
  unfold predecessors
  have hfold : ∀ (bs : List BlockId) (preds : Array (List BlockId)), preds.size = g.size →
      (a ∈ (bs.foldl (fun preds b =>
        (g.successors b).foldl (fun preds s => preds.modify s (· ++ [b])) preds) preds).getD s [] ↔
        a ∈ preds.getD s [] ∨ (a ∈ bs ∧ s ∈ g.successors a ∧ s < g.size)) := by
    intro bs
    induction bs with
    | nil => simp
    | cons b bs ih =>
      intro preds hsize
      rw [List.foldl_cons, ih _ ((size_foldl_modify _ _ _).trans hsize), mem_foldl_modify, hsize,
        List.mem_cons]
      by_cases hab : a = b
      · subst hab
        tauto
      · tauto
  rw [hfold _ _ Array.size_replicate]
  have hnone : (Array.replicate g.size ([] : List BlockId)).getD s [] = [] := by
    simp only [Array.getD_eq_getD_getElem?, Array.getElem?_replicate]
    split <;> rfl
  simp [hnone]

end Cfg

end ContractCompiler.Ssa
