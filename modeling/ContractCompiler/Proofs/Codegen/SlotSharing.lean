import ContractCompiler.Proofs.Codegen.Liveness
import ContractCompiler.Proofs.Ssa.DefinedUses
import Mathlib.Data.List.Pairwise

/-!
# Values that share a slot

Two values have the same slot only if neither is written while the other may still be used.

- `freeSlot_ne`: the slot that is chosen for a value is that of no value in conflict with it;
- `Assigned.Apart`, `assignSlots_spec`: values in conflict keep different slots while slots are
  given out;
- `kind_entryParam`, `home_entryParam`: the parameters of a function have the first slots in order;
- `home_ne_of_result`, `home_ne_of_param`: what may still be used is not in a slot that is written;
- `slots_apart`: what the places of the values of a function without faults are good for.
-/

namespace ContractCompiler.Codegen

open Ssa (ValueId BlockId FuncId Inst Terminator)

/-! ## Free slots -/

/-- If the number found is taken, so are all before it. -/
theorem leastFree_cases (taken : BitSet) (fuel n : Nat) :
    taken.contains (leastFree taken fuel n) = false ∨
    ∀ k ≤ fuel, taken.contains (n + k) = true := by
  induction fuel generalizing n with
  | zero =>
    rw [leastFree]
    cases htaken : taken.contains n with
    | false => exact .inl rfl
    | true =>
      refine .inr fun k hk => ?_
      obtain rfl := Nat.le_zero.mp hk
      exact htaken
  | succ fuel ih =>
    rw [leastFree]
    cases htaken : taken.contains n with
    | false => exact .inl htaken
    | true =>
      refine (ih (n + 1)).imp_right fun hall k hk => ?_
      cases k with
      | zero => exact htaken
      | succ k =>
        have hnext := hall k (Nat.le_of_succ_le_succ hk)
        rwa [Nat.add_assoc, Nat.add_comm 1 k] at hnext

theorem contains_takenSlots {conflicts : Array BitSet} {v : ValueId} {n : Nat} (assigned : Assigned)
    (taken : BitSet) :
    (assigned.foldl (fun taken x => if interfere conflicts v x.1 then taken.insert x.2 else taken)
      taken).contains n
      = true ↔ taken.contains n = true ∨ ∃ x ∈ assigned, interfere conflicts v x.1 = true ∧
        x.2 = n := by
  induction assigned generalizing taken with
  | nil => simp
  | cons x xs ih =>
    rw [List.foldl_cons, ih, List.exists_mem_cons_iff]
    by_cases hx : interfere conflicts v x.1 = true
    · rw [if_pos hx, BitSet.contains_insert, Bool.or_eq_true, decide_eq_true_iff]
      simp [hx, or_assoc]
    · simp [hx]

/-- The slot that is chosen for a value is that of no value in conflict with it. -/
theorem freeSlot_ne {conflicts : Array BitSet} {assigned : Assigned} {v : ValueId}
    {x : ValueId × Nat} (hx : x ∈ assigned) (hconflict : interfere conflicts v x.1 = true) :
    freeSlot conflicts assigned v ≠ x.2 := by
  intro heq
  have hfree := leastFree_cases
      (assigned.foldl (fun taken x => if interfere conflicts v x.1 then taken.insert x.2
    else taken) .empty) assigned.length 0
  rcases hfree with hfree | hall
  · have htaken := (contains_takenSlots assigned .empty).mpr (.inr ⟨x, hx, hconflict, heq.symm⟩)
    exact absurd (hfree.symm.trans htaken) Bool.false_ne_true
  · -- there would be more slots than values that have one
    have hsub : ∀ k ∈ List.range (assigned.length + 1), k ∈ assigned.map (·.2) := by
      intro k hk
      have htaken := hall k (Nat.le_of_lt_succ (List.mem_range.mp hk))
      rw [Nat.zero_add, contains_takenSlots, BitSet.contains_empty] at htaken
      obtain ⟨y, hy, -, rfl⟩ := htaken.resolve_left Bool.false_ne_true
      exact List.mem_map_of_mem hy
    have hle := (List.subperm_of_subset List.nodup_range hsub).length_le
    rw [List.length_range, List.length_map] at hle
    omega

/-! ## Giving out slots -/

/-- No value has two slots, and values in conflict have different ones. -/
structure Assigned.Apart (conflicts : Array BitSet) (assigned : Assigned) : Prop where
  nodup : (assigned.map (·.1)).Nodup
  apart : assigned.Pairwise fun x y => interfere conflicts x.1 y.1 = true → x.2 ≠ y.2

theorem Assigned.Apart.ne {conflicts : Array BitSet} {assigned : Assigned}
    (h : assigned.Apart conflicts) {x y : ValueId × Nat} (hx : x ∈ assigned) (hy : y ∈ assigned)
    (hne : x.1 ≠ y.1) (hconflict : interfere conflicts x.1 y.1 = true) : x.2 ≠ y.2 := by
  have hsymm : Std.Symm fun a b : ValueId × Nat => interfere conflicts a.1 b.1 = true →
      a.2 ≠ b.2 := by
    refine ⟨fun a b hab hba => (hab ?_).symm⟩
    rwa [interfere, Bool.or_comm] at hba
  exact h.apart.forall hx hy (fun heq => hne (congrArg Prod.fst heq)) hconflict

/-- Giving out slots keeps values in conflict apart, and gives one to every value. -/
theorem assignSlots_spec {conflicts : Array BitSet} (vs : List ValueId) : ∀ {assigned : Assigned},
    assigned.Apart conflicts →
      (assignSlots conflicts vs assigned).Apart conflicts ∧
      (∀ x ∈ assigned, x ∈ assignSlots conflicts vs assigned) ∧
      ∀ v ∈ vs, ∃ n, (v, n) ∈ assignSlots conflicts vs assigned := by
  induction vs with
  | nil => exact fun h => ⟨h, fun _ hx => hx, fun v hv => absurd hv List.not_mem_nil⟩
  | cons v vs ih =>
    intro assigned h
    rw [assignSlots]
    split
    · rename_i hfound
      obtain ⟨hend, hkept, hall⟩ := ih h
      refine ⟨hend, hkept, fun w hw => ?_⟩
      rcases List.mem_cons.mp hw with rfl | hw
      · obtain ⟨⟨x, n⟩, hx, heq⟩ := List.lookup_isSome_iff.mp hfound
        exact ⟨n, hkept _ (beq_iff_eq.mp heq ▸ hx)⟩
      · exact hall w hw
    · rename_i hnew
      have hfresh : ∀ x ∈ assigned, v ≠ x.1 :=
        fun x hx heq => hnew (List.lookup_isSome_iff.mpr ⟨x, hx, beq_iff_eq.mpr heq⟩)
      have hcons : Assigned.Apart conflicts ((v, freeSlot conflicts assigned v) :: assigned) := by
        refine ⟨List.nodup_cons.mpr ⟨fun hmem => ?_, h.nodup⟩,
          List.pairwise_cons.mpr ⟨fun x hx => ?_, h.apart⟩⟩
        · obtain ⟨x, hx, heq⟩ := List.mem_map.mp hmem
          exact hfresh x hx heq.symm
        · exact freeSlot_ne hx
      obtain ⟨hend, hkept, hall⟩ := ih hcons
      refine ⟨hend, fun x hx => hkept x (List.mem_cons_of_mem _ hx), fun w hw => ?_⟩
      rcases List.mem_cons.mp hw with rfl | hw
      · exact ⟨_, hkept _ List.mem_cons_self⟩
      · exact hall w hw

/-- The slot of a value is the one that it was given. -/
theorem getD_setSlots_of_mem {assigned : Assigned} (hnodup : (assigned.map (·.1)).Nodup)
    {x : ValueId × Nat} (hx : x ∈ assigned) {slots : Array Nat} (hlt : x.1 < slots.size) :
    (assigned.foldr (fun x slots => slots.setIfInBounds x.1 x.2) slots).getD x.1 0 = x.2 := by
  have hsize : ∀ assigned : Assigned,
      (assigned.foldr (fun x slots => slots.setIfInBounds x.1 x.2) slots).size = slots.size := by
    intro assigned
    induction assigned with
    | nil => rfl
    | cons y ys ih => rw [List.foldr_cons, Array.size_setIfInBounds, ih]
  induction assigned with
  | nil => cases hx
  | cons y ys ih =>
    obtain ⟨hfresh, hrest⟩ := List.nodup_cons.mp hnodup
    rw [List.foldr_cons, Array.getD_eq_getD_getElem?]
    rcases List.mem_cons.mp hx with rfl | hx
    · rw [Array.getElem?_setIfInBounds_self_of_lt ((hsize ys).symm ▸ hlt)]
      rfl
    · have hne : y.1 ≠ x.1 := fun heq => hfresh (List.mem_map.mpr ⟨x, hx, heq.symm⟩)
      rw [Array.getElem?_setIfInBounds_ne hne, ← Array.getD_eq_getD_getElem?]
      exact ih hrest hx

/-! ## Parameters of the function -/

section Plan

variable {m : Ssa.Module} {f : Ssa.Function}

/-- A parameter of a block is not the result of an instruction. -/
theorem result_ne_of_param (hf : f.Verified m) {b b' : BlockId} (hb : b ∈ f.blocks)
    (hb' : b' ∈ f.blocks) {p : ValueId} (hp : p ∈ (m.block b).params) {i : Inst}
    (hi : i ∈ instsOf m b') : i.result ≠ some p := by
  intro hresult
  obtain ⟨k, hk⟩ := List.getElem?_of_mem hp
  obtain ⟨value, hvalue, hparam⟩ := hf.param_site b hb k p hk
  obtain ⟨id, hid, hinst⟩ := exists_inst_of_mem hi
  obtain ⟨value', hvalue', hsite⟩ := hf.result_site b' hb' id hid i p hinst hresult
  obtain rfl := Option.some.inj (hvalue.symm.trans hvalue')
  cases hparam.symm.trans hsite

theorem lt_size_of_param (hf : f.Verified m) {b : BlockId} (hb : b ∈ f.blocks) {p : ValueId}
    (hp : p ∈ (m.block b).params) : p < m.values.size := by
  obtain ⟨k, hk⟩ := List.getElem?_of_mem hp
  obtain ⟨value, hvalue, -⟩ := hf.param_site b hb k p hk
  exact (Array.getElem?_eq_some_iff.mp hvalue).1

theorem nodup_params (hf : f.Verified m) {b : BlockId} (hb : b ∈ f.blocks) :
    (m.block b).params.Nodup :=
  ((List.nodup_flatMap.mp hf.defined_once).1 b hb).of_append_left

/-- The parameters of the entry and those that are used need slots. -/
theorem getD_paramKinds {uses : Array Nat} {isEntry : Bool} {p : ValueId}
    (hset : isEntry = true ∨ uses.getD p 0 ≠ 0) (params : List ValueId) {kinds : Array HomeKind}
    (hlt : p < kinds.size) (hp : p ∈ params ∨ kinds.getD p .none = .slot) :
    (paramKinds uses isEntry params kinds).getD p .none = .slot := by
  unfold paramKinds
  induction params generalizing kinds with
  | nil => exact hp.resolve_left List.not_mem_nil
  | cons q qs ih =>
    rw [List.foldl_cons]
    by_cases hq : p = q
    · subst hq
      rw [if_pos (by simpa using hset)]
      exact ih (by rwa [Array.size_setIfInBounds])
        (.inr (by simp [Array.getD_eq_getD_getElem?, hlt]))
    · have hne : ¬q = p := fun heq => hq heq.symm
      split
      · exact ih (by rwa [Array.size_setIfInBounds])
          (by simpa [Array.getD_eq_getD_getElem?, hne, hq] using hp)
      · exact ih hlt (by simpa [hq] using hp)

theorem kind_entryParam (hf : f.Verified m) {entry : BlockId} (hentry : f.entry = some entry)
    (hmem : entry ∈ f.blocks) {p : ValueId} (hp : p ∈ (m.block entry).params) :
    (homeKinds m f).getD p .none = .slot := by
  let uses := useCounts m f
  let block (kinds : Array HomeKind) (b : BlockId) : Array HomeKind :=
    resultKinds uses (m.block b).term (instsOf m b)
      (paramKinds uses (f.entry == some b) (m.block b).params kinds)
  have hsize (kinds : Array HomeKind) (b : BlockId) : (block kinds b).size = kinds.size :=
    (size_resultKinds _ _ _).trans (size_paramKinds _ _ _)
  -- what is set for the parameter is not set anew for a result
  have hresult (kinds : Array HomeKind) {b : BlockId} (hb : b ∈ f.blocks)
      (hparam : (paramKinds uses (f.entry == some b) (m.block b).params kinds).getD p .none =
        .slot) :
      (block kinds b).getD p .none = .slot := by
    rcases @resultKinds_cases uses p (m.block b).term (instsOf m b)
      (paramKinds uses (f.entry == some b) (m.block b).params kinds) with hold |
      ⟨done, i, rest, hinsts, hr, -⟩
    · exact hold.trans hparam
    · exact absurd hr (result_ne_of_param hf hmem hb hp (by simp [hinsts]))
  have hkept (kinds : Array HomeKind) {b : BlockId} (hb : b ∈ f.blocks)
      (hslot : kinds.getD p .none = .slot) :
      (block kinds b).getD p .none = .slot := by
    refine hresult kinds hb ?_
    rcases @paramKinds_cases uses p (f.entry == some b) (m.block b).params kinds with hold |
      ⟨-, hset⟩
    · exact hold.trans hslot
    · exact hset
  have hfold : ∀ (bs : List BlockId), (∀ b ∈ bs, b ∈ f.blocks) → ∀ kinds : Array HomeKind,
      p < kinds.size → entry ∈ bs ∨ kinds.getD p .none = .slot →
      (bs.foldl block kinds).getD p .none = .slot := by
    intro bs
    induction bs with
    | nil => exact fun _ kinds _ h => h.resolve_left List.not_mem_nil
    | cons b bs ih =>
      intro hbs kinds hlt h
      have hb := hbs b List.mem_cons_self
      refine ih (fun b' hb' => hbs b' (List.mem_cons_of_mem b hb')) (block kinds b)
        ((hsize kinds b).symm ▸ hlt) ?_
      rcases h with hentryMem | hslot
      · rcases List.mem_cons.mp hentryMem with rfl | hlater
        · right
          refine hresult kinds hb ?_
          rw [hentry, beq_self_eq_true]
          exact getD_paramKinds (.inl rfl) _ hlt (.inl hp)
        · exact .inl hlater
      · exact .inr (hkept kinds hb hslot)
  refine hfold f.blocks (fun _ hb => hb) _ ?_ (.inl hmem)
  rw [Array.size_replicate]
  exact lt_size_of_param hf hmem hp

/-! ## The slots of the values of a function -/

/-- What the slots of a function are given out from. -/
def slotInput (m : Ssa.Module) (f : Ssa.Function) : SlotInput where
  module := m
  function := f
  slotted := .ofList (slottedValues m f)

/-- The values that the entry takes, with the slots that they have from the start. -/
def fixedSlots (m : Ssa.Module) (f : Ssa.Function) : Assigned :=
  ((entryParams m f).zipIdx.filter fun x => (homeKinds m f).getD x.1 .none == .slot).reverse

theorem slotAssignment_eq (m : Ssa.Module) (f : Ssa.Function) :
    slotAssignment m f = assignSlots (slotInput m f).conflicts (slottedValues m f)
      (fixedSlots m f) := rfl

theorem apart_fixedSlots (hnodup : (entryParams m f).Nodup) (conflicts : Array BitSet) :
    (fixedSlots m f).Apart conflicts := by
  have hsub := (List.filter_sublist (p := fun x => (homeKinds m f).getD x.1 .none == .slot)
    (l := (entryParams m f).zipIdx))
  constructor
  · rw [fixedSlots, List.map_reverse, List.nodup_reverse]
    refine (hsub.map _).nodup ?_
    rwa [List.zipIdx_map_fst]
  · have hslots : ((fixedSlots m f).map (·.2)).Nodup := by
      rw [fixedSlots, List.map_reverse, List.nodup_reverse]
      refine (hsub.map _).nodup ?_
      rw [List.zipIdx_map_snd]
      exact List.nodup_range'
    refine (List.pairwise_map.mp hslots).imp ?_
    intro x y hne _
    exact hne

/-- Slots are given out to all values that need one, and values in conflict have different slots. -/
theorem slotAssignment_spec (hf : f.Verified m) :
    (slotAssignment m f).Apart (slotInput m f).conflicts ∧
    (∀ x ∈ fixedSlots m f, x ∈ slotAssignment m f) ∧
      ∀ v ∈ slottedValues m f, ∃ n, (v, n) ∈ slotAssignment m f := by
  obtain ⟨entry, hmem, hentry⟩ := hf.entry
  rw [slotAssignment_eq]
  refine assignSlots_spec (slottedValues m f) (apart_fixedSlots ?_ _)
  rw [entryParams, hentry]
  exact nodup_params hf hmem

/-- A value that needs a slot has the one that was given to it. -/
theorem home_of_mem (hf : f.Verified m) {v : ValueId} (hv : v < m.values.size)
    (hkind : (homeKinds m f).getD v .none = .slot) {n : Nat} (hn : (v, n) ∈ slotAssignment m f) :
    (slotPlan m f).home v = .slot n := by
  obtain ⟨hapart, -, -⟩ := slotAssignment_spec hf
  have hslot : ((slotAssignment m f).foldr (fun x slots => slots.setIfInBounds x.1 x.2)
      (Array.replicate m.values.size 0)).getD v 0 = n :=
    getD_setSlots_of_mem hapart.nodup hn (by rwa [Array.size_replicate])
  rw [slotPlan_eq]
  unfold SlotPlan.home
  rw [Array.getD_eq_getD_getElem?, Array.getElem?_map, Array.getElem?_range, if_pos hv]
  show homeOf _ ((homeKinds m f).getD v .none) v = .slot n
  rw [hkind]
  exact congrArg Home.slot hslot

/-- A value in a slot needs one, and has the one that was given to it. -/
theorem mem_slotAssignment (hf : f.Verified m) {v : ValueId} {n : Nat}
    (hhome : (slotPlan m f).home v = .slot n) :
    v ∈ slottedValues m f ∧ (v, n) ∈ slotAssignment m f := by
  rcases home_slotPlan (m := m) (f := f) (v := v) with hnone | ⟨hv, hplace⟩
  · rw [hnone] at hhome
    cases hhome
  have hkind : (homeKinds m f).getD v .none = .slot := by
    rw [hplace] at hhome
    cases hk : (homeKinds m f).getD v .none with
    | slot => rfl
    | _ =>
      rw [hk] at hhome
      cases hhome
  obtain ⟨b, hb, hdefined⟩ := mem_definitions_of_slot hkind
  have hslotted : v ∈ slottedValues m f :=
    List.mem_filter.mpr ⟨List.mem_flatMap.mpr ⟨b, hb, hdefined⟩, by simp [hkind]⟩
  obtain ⟨-, -, hall⟩ := slotAssignment_spec hf
  obtain ⟨n', hn'⟩ := hall v hslotted
  obtain rfl := Home.slot.inj (hhome.symm.trans (home_of_mem hf hv hkind hn'))
  exact ⟨hslotted, hn'⟩

/-- Values in slots are apart if one of them is written while the other is alive. -/
theorem home_ne_of_conflict (hf : f.Verified m) {v x : ValueId} {n : Nat} (hne : x ≠ v)
    (hv : (slotPlan m f).home v = .slot n)
    (hconflict : (slotInput m f).slotted.contains x = true →
      BitSet.InRow (slotInput m f).conflicts v x) :
    (slotPlan m f).home x ≠ .slot n := by
  intro hx
  obtain ⟨-, hvn⟩ := mem_slotAssignment hf hv
  obtain ⟨hslotted, hxn⟩ := mem_slotAssignment hf hx
  obtain ⟨hapart, -, -⟩ := slotAssignment_spec hf
  have hrow := hconflict (BitSet.contains_ofList.mpr hslotted)
  refine hapart.ne hvn hxn hne.symm ?_ rfl
  rw [interfere, Bool.or_eq_true]
  exact .inl hrow

/-- The parameters of a function have the first slots in order. -/
theorem home_entryParam (hf : f.Verified m) {i : Nat} {p : ValueId}
    (hp : (entryParams m f)[i]? = some p) :
    (slotPlan m f).home p = .slot i := by
  obtain ⟨entry, hmem, hentry⟩ := hf.entry
  obtain ⟨-, hfixed, -⟩ := slotAssignment_spec hf
  have hparams : entryParams m f = (m.block entry).params := by
    rw [entryParams, hentry]
    rfl
  have hpmem : p ∈ (m.block entry).params := hparams ▸ List.mem_of_getElem? hp
  have hkind := kind_entryParam hf hentry hmem hpmem
  refine home_of_mem hf (lt_size_of_param hf hmem hpmem) hkind (hfixed _ (List.mem_reverse.mpr ?_))
  exact List.mem_filter.mpr ⟨List.mem_zipIdx_iff_getElem?.mpr hp, by simp [hkind]⟩

theorem size_homeKinds (m : Ssa.Module) (f : Ssa.Function) :
    (homeKinds m f).size = m.values.size := by
  have hfold : ∀ (bs : List BlockId) (kinds : Array HomeKind), (bs.foldl (fun kinds b =>
      resultKinds (useCounts m f) (m.block b).term (instsOf m b)
        (paramKinds (useCounts m f) (f.entry == some b) (m.block b).params kinds)) kinds).size =
        kinds.size := by
    intro bs
    induction bs with
    | nil => exact fun _ => rfl
    | cons b bs ih =>
      intro kinds
      rw [List.foldl_cons, ih, size_resultKinds, size_paramKinds]
  exact (hfold f.blocks _).trans Array.size_replicate

theorem lt_size_of_slotted {v : ValueId} (hv : (slotInput m f).slotted.contains v = true) :
    v < m.values.size := by
  have hkind := (List.mem_filter.mp (BitSet.contains_ofList.mp hv)).2
  by_contra hge
  have hnone : (homeKinds m f)[v]? = none :=
    Array.getElem?_eq_none ((size_homeKinds m f).symm ▸ Nat.le_of_not_lt hge)
  rw [Array.getD_eq_getD_getElem?, hnone] at hkind
  cases hkind

theorem contains_slotted (hf : f.Verified m) {v : ValueId} {n : Nat}
    (hhome : (slotPlan m f).home v = .slot n) :
    (slotInput m f).slotted.contains v = true :=
  BitSet.contains_ofList.mpr (mem_slotAssignment hf hhome).1

/-- What may still be used in a block is in the set that the block is walked with. -/
theorem contains_alive (hf : f.Verified m) {x : ValueId}
    (hx : (slotInput m f).slotted.contains x = true) {b : BlockId} (hb : b ∈ f.blocks)
    {rest : List Inst} (h : LiveAt m x b rest) :
    (rest.foldr (slotInput m f).throughInst ((slotInput m f).atEnd (slotInput m f).liveIn
      (m.block b))).contains x = true := by
  have hedges : ∀ b ∈ f.blocks, ∀ next ∈ (m.block b).successors, next ∈ f.blocks := by
    intro b hb next hnext
    obtain ⟨term, hterm, args, hargs⟩ := Ssa.exists_argsTo_of_successor hnext
    exact hf.edge_target b hb term next args hterm hargs
  exact @SlotInput.contains_of_liveAt (slotInput m f) _ hf.blocks_lt (fun v => lt_size_of_slotted)
    hedges hx _ _ h hb

/-- No other value that may still be used is in the slot to which a result is written. -/
theorem home_ne_of_result (hf : f.Verified m) {b : BlockId} (hb : b ∈ f.blocks)
    {done rest : List Inst} {i : Inst} {v : ValueId} {n : Nat}
    (hinsts : instsOf m b = done ++ i :: rest) (hresult : i.result = some v)
    (hhome : (slotPlan m f).home v = .slot n) {x : ValueId} (hne : x ≠ v) (hx : LiveAt m x b rest) :
    (slotPlan m f).home x ≠ .slot n := by
  have hconflicts := @SlotInput.conflicts_spec (slotInput m f) (fun v => lt_size_of_slotted) b hb
  refine home_ne_of_conflict hf hne hhome fun hxs => ?_
  exact hconflicts.result done i rest v hinsts hresult (contains_slotted hf hhome) x hne
    (contains_alive hf hxs hb hx)

/-- No other value that may still be used is in the slot to which a parameter of a block is written,
and no other parameter of the block. -/
theorem home_ne_of_param (hf : f.Verified m) {b : BlockId} (hb : b ∈ f.blocks)
    {v : ValueId} {n : Nat} (hv : v ∈ (m.block b).params) (hhome : (slotPlan m f).home v = .slot n)
    {x : ValueId} (hne : x ≠ v) (hx : x ∈ (m.block b).params ∨ LiveAt m x b (instsOf m b)) :
    (slotPlan m f).home x ≠ .slot n := by
  have hconflicts := @SlotInput.conflicts_spec (slotInput m f) (fun v => lt_size_of_slotted) b hb
  refine home_ne_of_conflict hf hne hhome fun hxs => ?_
  refine hconflicts.param v hv (contains_slotted hf hhome) x hne ?_
  exact hx.symm.imp (contains_alive hf hxs hb) fun hparam => ⟨hparam, hxs⟩

end Plan

/-- Where values live in a function without faults. The parameters of the function have the first
slots, and all slots are there. Where the result of an instruction or a parameter of a block is
written to a slot, no other value that may still be used is in that slot, and no other parameter of
the block. A value on the operand stack is used once, as the operand that what follows takes from
there. -/
theorem slots_apart {m : Ssa.Module} (hverify : m.verify = []) {id : FuncId} {f : Ssa.Function}
    (hf : m.functions[id]? = some f) (hlive : f.excluded = false) :
    let plan := slotPlan m f
    (∀ (i : Nat) p, (entryParams m f)[i]? = some p → plan.home p = .slot i) ∧
      (∀ v n, plan.home v = .slot n → n < plan.numSlots) ∧
      (∀ b ∈ f.blocks, ∀ done i rest v n, instsOf m b = done ++ i :: rest → i.result = some v →
        plan.home v = .slot n → ∀ x, x ≠ v → LiveAt m x b rest → plan.home x ≠ .slot n) ∧
      (∀ b ∈ f.blocks, ∀ v ∈ (m.block b).params, ∀ n, plan.home v = .slot n →
        ∀ x, x ≠ v → x ∈ (m.block b).params ∨ LiveAt m x b (instsOf m b) → plan.home x ≠ .slot n) ∧
      ∀ v, plan.home v = .stack → ∃ b done i rest, OnStack m f v b done i rest := by
  have hverified := Ssa.Module.verified_of_verify hverify hf hlive
  refine ⟨fun i p => home_entryParam hverified, fun v n => lt_of_home_slot, ?_, ?_,
    fun v => exists_onStack⟩
  · intro b hb done i rest v n hinsts hresult hhome x hne hx
    exact home_ne_of_result hverified hb hinsts hresult hhome hne hx
  · intro b hb v hv n hhome x hne hx
    exact home_ne_of_param hverified hb hv hhome hne hx

/-- In the loop that counts to its argument, the sum is written to the slot of the count before, and
the argument that the next test needs is elsewhere. -/
theorem slots_apart_counting : Ssa.countingModule.verify = [] ∧
    (slotPlan Ssa.countingModule Ssa.countingModule.functions[0]).home 2 = .slot 1 ∧
    (slotPlan Ssa.countingModule Ssa.countingModule.functions[0]).home 5 = .slot 1 ∧
    LiveAt Ssa.countingModule 0 2 [] ∧
    (slotPlan Ssa.countingModule Ssa.countingModule.functions[0]).home 0 ≠ .slot 1 := by
  have hverify : Ssa.countingModule.verify = [] := List.isEmpty_iff.mp (by decide +kernel)
  have hsum : (slotPlan Ssa.countingModule Ssa.countingModule.functions[0]).home 5 = .slot 1 := by
    decide +kernel
  have hlive : LiveAt Ssa.countingModule 0 2 [] := by
    refine .edge (by decide : 1 ∈ (Ssa.countingModule.block 2).successors) (by decide) ?_
    rw [show instsOf Ssa.countingModule 1 = [Ssa.countingModule.insts[1]] by decide]
    exact .used (by decide)
  obtain ⟨-, -, hresults, -⟩ := slots_apart hverify
    (rfl : Ssa.countingModule.functions[0]? = some Ssa.countingModule.functions[0]) rfl
  refine ⟨hverify, by decide +kernel, hsum, hlive, ?_⟩
  exact hresults 2 (by decide) [Ssa.countingModule.insts[2]] Ssa.countingModule.insts[3] [] 5 1
    (by decide) rfl hsum 0 (by decide) hlive

end ContractCompiler.Codegen
