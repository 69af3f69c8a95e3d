import ContractCompiler.Proofs.Domain.Collection

/-!
# Numbered sets of any module

What `collectFunctions` leaves for a module of which nothing is known, so that a key in the table
may stand for another key with the same canonical text.

- `KeyTable.Distinct`: no canonical text has two numbers;
- `KeyTable.Spells`: a set has the numbers of some canonical texts;
- `Collector.Grows`: numbers keep their keys, and none is given twice;
- `FunctionDomains.Widens`: entering accesses adds numbers of the table to the own sets, and nothing
  else;
- `FunctionDomains.Gathered`, `collectFunctions_gathered`: what is collected for each function.
-/

namespace ContractCompiler

/-! ## Numbers of texts -/

namespace KeyTable

/-- No canonical text has two numbers. -/
def Distinct (t : KeyTable) : Prop := ∀ id id' text, t.Names id text → t.Names id' text → id = id'

theorem distinct_empty : ({} : KeyTable).Distinct := by
  rintro id id' text ⟨k, hk, -⟩
  simp [get?] at hk

theorem names_push_iff {t : KeyTable} {k : DomainKey} {id : Nat} {text : String} :
    ({ keys := t.keys.push k } : KeyTable).Names id text ↔
      t.Names id text ∨ (id = t.keys.size ∧ k.canonical = text) := by
  unfold Names get?
  rw [Array.getElem?_push]
  by_cases hid : id = t.keys.size
  · subst hid
    simp
  · simp [hid]

/-- A key is numbered only if its text has no number. -/
theorem Distinct.intern {t : KeyTable} (h : t.Distinct) (k : DomainKey) :
    (t.intern k).2.Distinct := by
  unfold KeyTable.intern find?
  cases hfind : t.keys.findFinIdx? (·.canonical == k.canonical) with
  | some i => exact h
  | none =>
    have hnew : ∀ id, ¬t.Names id k.canonical := by
      rintro id ⟨k', hk', htext⟩
      have hall := Array.findFinIdx?_eq_none_iff.mp hfind k' (Array.mem_of_getElem? hk')
      exact hall (beq_iff_eq.mpr htext)
    intro id id' text hid hid'
    rcases names_push_iff.mp hid with hold | ⟨rfl, rfl⟩ <;>
      rcases names_push_iff.mp hid' with hold' | ⟨rfl, htext⟩
    · exact h id id' text hold hold'
    · exact absurd (htext ▸ hold) (hnew id)
    · exact absurd hold' (hnew id')
    · rfl

/-- A set has the numbers of the canonical texts of some keys, and no others. -/
structure Spells (t : KeyTable) (set : List KeyId) (ks : List DomainKey) : Prop where
  named : ∀ id ∈ set, ∃ k ∈ ks, t.Names id k.canonical
  complete : ∀ k ∈ ks, ∃ id ∈ set, t.Names id k.canonical

theorem Spells.mono {t t' : KeyTable} {set : List KeyId} {ks : List DomainKey} (h : t.Spells set ks)
    (ht : t.Extends t') : t'.Spells set ks := by
  constructor
  · intro id hid
    obtain ⟨k, hk, hnames⟩ := h.named id hid
    exact ⟨k, hk, hnames.mono ht⟩
  · intro k hk
    obtain ⟨id, hid, hnames⟩ := h.complete k hk
    exact ⟨id, hid, hnames.mono ht⟩

theorem Spells.nil (t : KeyTable) : t.Spells [] [] :=
  ⟨fun _ h => absurd h List.not_mem_nil, fun _ h => absurd h List.not_mem_nil⟩

/-- Where texts have one number each, a set of numbers is told by the texts. -/
theorem Spells.mem_iff {t : KeyTable} {set : List KeyId} {ks : List DomainKey} (h : t.Spells set ks)
    (ht : t.Distinct) {id : KeyId} : id ∈ set ↔ ∃ k ∈ ks, t.Names id k.canonical := by
  constructor
  · exact h.named id
  · rintro ⟨k, hk, hnames⟩
    obtain ⟨id', hid', hnames'⟩ := h.complete k hk
    exact ht id' id _ hnames' hnames ▸ hid'

theorem Spells.lt_size {t : KeyTable} {set : List KeyId} {ks : List DomainKey} (h : t.Spells set ks)
    {id : KeyId} (hid : id ∈ set) : id < t.keys.size := by
  obtain ⟨k, -, hnames⟩ := h.named id hid
  exact hnames.lt_size

end KeyTable

/-! ## The table of keys -/

/-- Numbers keep their keys, and no text is given a second one. -/
structure Collector.Grows (c c' : Collector) : Prop where
  keys : c.keys.Extends c'.keys
  distinct : c.keys.Distinct → c'.keys.Distinct

namespace Collector.Grows

theorem refl (c : Collector) : Grows c c := ⟨.refl _, id⟩

theorem trans {c c' c'' : Collector} (h : Grows c c') (h' : Grows c' c'') : Grows c c'' :=
  ⟨h.keys.trans h'.keys, fun hc => h'.distinct (h.distinct hc)⟩

/-- What does not change the table. -/
theorem of_keys_eq {c c' : Collector} (h : c'.keys = c.keys) : Grows c c' :=
  ⟨h ▸ .refl _, fun hc => h ▸ hc⟩

end Collector.Grows

variable {c : Collector}

theorem intern_grows (c : Collector) (k : DomainKey) :
    Collector.Grows c ((Collect.intern k).run c).2 ∧
      ((Collect.intern k).run c).2.keys.Names ((Collect.intern k).run c).1 k.canonical := by
  obtain ⟨hext, hnames, -⟩ := c.keys.intern_spec k
  exact ⟨⟨hext, fun hc => hc.intern k⟩, hnames⟩

theorem internAll_grows (ks : List DomainKey) (c : Collector) :
    Collector.Grows c ((Collect.internAll ks).run c).2 ∧
      ((Collect.internAll ks).run c).2.keys.Spells ((Collect.internAll ks).run c).1 ks := by
  induction ks generalizing c with
  | nil => exact ⟨.refl c, .nil _⟩
  | cons k ks ih =>
    obtain ⟨hgrow, hnames⟩ := intern_grows c k
    obtain ⟨hgrow', hspells⟩ := ih ((Collect.intern k).run c).2
    have hfirst := hnames.mono hgrow'.keys
    refine ⟨hgrow.trans hgrow', fun id hid => ?_, fun k' hk' => ?_⟩
    · rcases List.mem_cons.mp hid with rfl | hid
      · exact ⟨k, List.mem_cons_self, hfirst⟩
      · obtain ⟨k', hk', hnames'⟩ := hspells.named id hid
        exact ⟨k', List.mem_cons_of_mem _ hk', hnames'⟩
    · rcases List.mem_cons.mp hk' with rfl | hk'
      · exact ⟨_, List.mem_cons_self, hfirst⟩
      · obtain ⟨id, hid, hnames'⟩ := hspells.complete k' hk'
        exact ⟨id, List.mem_cons_of_mem _ hid, hnames'⟩

/-! ## The own sets -/

namespace FunctionDomains

/-- Entering accesses adds numbers of the table to the sets of a function's own code, and nothing
else. -/
structure Widens (keys keys' : KeyTable) (d d' : FunctionDomains) : Prop where
  source_eq : d'.source = d.source
  declares_eq : ∀ write, d'.declares write = d.declares write
  visible_eq : ∀ write, d'.visible write = d.visible write
  computed_eq : ∀ write, d'.computed write = d.computed write
  increasing : ∀ write, KeySet.Increasing (d.own write) → KeySet.Increasing (d'.own write)
  bounded : ∀ write, (∀ k ∈ d.own write, k < keys.keys.size) →
      ∀ k ∈ d'.own write, k < keys'.keys.size

variable {keys keys' keys'' : KeyTable} {d d' d'' : FunctionDomains}

/-- What leaves all sets as they are. -/
theorem Widens.of_eq (hkeys : keys.Extends keys') (hsource : d'.source = d.source)
    (hdeclares : ∀ write, d'.declares write = d.declares write)
    (hvisible : ∀ write, d'.visible write = d.visible write)
    (hcomputed : ∀ write, d'.computed write = d.computed write)
    (hown : ∀ write, d'.own write = d.own write) : Widens keys keys' d d' where
  source_eq := hsource
  declares_eq := hdeclares
  visible_eq := hvisible
  computed_eq := hcomputed
  increasing w h := by rwa [hown]
  bounded w h k hk := by
    rw [hown] at hk
    exact (h k hk).trans_le hkeys.size_le

theorem Widens.refl (keys : KeyTable) (d : FunctionDomains) : Widens keys keys d d :=
  .of_eq (.refl keys) rfl (fun _ => rfl) (fun _ => rfl) (fun _ => rfl) fun _ => rfl

theorem Widens.trans (h : Widens keys keys' d d') (h' : Widens keys' keys'' d' d'') :
    Widens keys keys'' d d'' where
  source_eq := h'.source_eq.trans h.source_eq
  declares_eq w := (h'.declares_eq w).trans (h.declares_eq w)
  visible_eq w := (h'.visible_eq w).trans (h.visible_eq w)
  computed_eq w := (h'.computed_eq w).trans (h.computed_eq w)
  increasing w hinc := h'.increasing w (h.increasing w hinc)
  bounded w hd := h'.bounded w (h.bounded w hd)

theorem widens_addAccesses (d : FunctionDomains) (isWrite : Bool) (span : Span) {ids : List KeyId}
    (hkeys : keys.Extends keys') (hids : ∀ id ∈ ids, id < keys'.keys.size) :
    Widens keys keys' d (d.addAccesses isWrite span ids) where
  source_eq := rfl
  declares_eq w := by cases w <;> rfl
  visible_eq w := by cases w <;> rfl
  computed_eq w := by cases w <;> rfl
  increasing w hinc := by
    rw [own_addAccesses]
    split
    · exact hinc.union ids
    · exact hinc
  bounded w hd k hk := by
    have hold : ∀ k ∈ d.own w, k < keys'.keys.size := fun k hk => (hd k hk).trans_le hkeys.size_le
    rw [own_addAccesses] at hk
    split at hk
    · rcases KeySet.mem_union.mp hk with hk | hk
      · exact hold k hk
      · exact hids k hk
    · exact hold k hk

end FunctionDomains

section Hashed

variable [Hashing] {unit : String}

theorem collectAccess_widens (unit : String) (search : Ssa.KeySearch) (policy : WildcardPolicy)
    (name : String) (span : Span) (a : StateAccess) (d : FunctionDomains) (c : Collector) :
    let r := (collectAccess search unit policy name span a d).run c
    Collector.Grows c r.2 ∧ d.Widens c.keys r.2.keys r.1 := by
  unfold collectAccess
  cases search.resolve a.key with
  | some consts =>
    obtain ⟨hgrow, hspells⟩ := internAll_grows
      (consts.map fun k => .exact unit a.ns (k.text (search.keySigned a.key)))
        { c with accesses := c.accesses + 1 }
    exact ⟨⟨hgrow.keys, hgrow.distinct⟩, d.widens_addAccesses a.isWrite span hgrow.keys fun _ hid =>
      hspells.lt_size hid⟩
  | none =>
    cases policy with
    | reject =>
      refine ⟨.of_keys_eq rfl, .of_eq (.refl c.keys) rfl ?_ ?_ ?_ ?_⟩
      all_goals exact fun w => by cases w <;> rfl
    | coarsen =>
      obtain ⟨hgrow, hnames⟩ := intern_grows { c with accesses := c.accesses + 1 }
        (DomainKey.all unit a.ns)
      have hcount : d.Widens c.keys c.keys { d with fallbacks := d.fallbacks + 1 } := by
        refine .of_eq (.refl c.keys) rfl ?_ ?_ ?_ ?_
        all_goals exact fun w => by cases w <;> rfl
      refine ⟨⟨hgrow.keys, hgrow.distinct⟩, hcount.trans ?_⟩
      refine FunctionDomains.widens_addAccesses _ a.isWrite span hgrow.keys fun id hid => ?_
      obtain rfl := List.mem_singleton.mp hid
      exact hnames.lt_size

theorem collectInsts_widens (unit : String) (search : Ssa.KeySearch) (policy : WildcardPolicy)
    (name : String) (insts : List Ssa.Inst) (d : FunctionDomains) (c : Collector) :
    let r := (collectInsts search unit policy name insts d).run c
    Collector.Grows c r.2 ∧ d.Widens c.keys r.2.keys r.1 := by
  induction insts generalizing d c with
  | nil => exact ⟨.refl c, .refl c.keys d⟩
  | cons inst rest ih =>
    rw [collectInsts]
    cases inst.data.stateAccess? with
    | none => exact ih d c
    | some a =>
      obtain ⟨hgrow, hwidens⟩ := collectAccess_widens unit search policy name inst.span a d c
      obtain ⟨hgrow', hwidens'⟩ :=
        ih ((collectAccess search unit policy name inst.span a d).run c).1
        ((collectAccess search unit policy name inst.span a d).run c).2
      exact ⟨hgrow.trans hgrow', hwidens.trans hwidens'⟩

theorem collectDeclared_grows (unit : String) (declared : Option (List DeclaredKey))
    (c : Collector) :
    let r := (collectDeclared unit declared).run c
    Collector.Grows c r.2 ∧ KeySet.Increasing r.1 ∧
      r.2.keys.Spells r.1 ((declared.getD []).map (·.toDomainKey unit)) := by
  cases declared with
  | none => exact ⟨.refl c, List.Pairwise.nil, .nil _⟩
  | some ks =>
    obtain ⟨hgrow, hspells⟩ := internAll_grows (ks.map (·.toDomainKey unit)) c
    refine ⟨hgrow, KeySet.Increasing.union List.Pairwise.nil _, fun id hid => ?_, fun k hk => ?_⟩
    · exact hspells.named id ((KeySet.mem_union.mp hid).resolve_left List.not_mem_nil)
    · obtain ⟨id, hid, hnames⟩ := hspells.complete k hk
      exact ⟨id, KeySet.mem_union.mpr (.inr hid), hnames⟩

/-! ## Functions -/

/-- What is collected for a function: declared sets for callers, and the own sets of functions that
are neither trusted nor left out. -/
structure FunctionDomains.Gathered (unit : String) (keys : KeyTable) (f : Ssa.Function)
    (d : FunctionDomains) :
    Prop where
  source_iff : d.source = .trusted ↔ (parseAnnotations f.attrs).annotations.noState = true
  declares_eq : ∀ write, d.declares write = (!(parseAnnotations f.attrs).annotations.noState &&
    ((parseAnnotations f.attrs).annotations.declared write).isSome)
  increasing_own : ∀ write, KeySet.Increasing (d.own write)
  bounded_own : ∀ write, ∀ k ∈ d.own write, k < keys.keys.size
  increasing : ∀ write, KeySet.Increasing (d.visible write)
  spells : ∀ write, keys.Spells (d.visible write) (f.declaredKeys unit write)
  computed_nil : ∀ write, d.computed write = []

namespace FunctionDomains.Gathered

variable {keys keys' : KeyTable} {f : Ssa.Function} {d : FunctionDomains}

theorem mono (h : Gathered unit keys f d) (hkeys : keys.Extends keys') :
    Gathered unit keys' f d where
  source_iff := h.source_iff
  declares_eq := h.declares_eq
  increasing_own := h.increasing_own
  bounded_own w k hk := (h.bounded_own w k hk).trans_le hkeys.size_le
  increasing := h.increasing
  spells w := (h.spells w).mono hkeys
  computed_nil := h.computed_nil

/-- Entering accesses keeps what is known of a function. -/
theorem widen (h : Gathered unit keys f d) {d' : FunctionDomains} (hd : d.Widens keys keys' d')
    (hkeys : keys.Extends keys') : Gathered unit keys' f d' where
  source_iff := by rw [hd.source_eq, h.source_iff]
  declares_eq w := (hd.declares_eq w).trans (h.declares_eq w)
  increasing_own w := hd.increasing w (h.increasing_own w)
  bounded_own w := hd.bounded w (h.bounded_own w)
  increasing w := by
    rw [hd.visible_eq]
    exact h.increasing w
  spells w := by
    rw [hd.visible_eq]
    exact (h.spells w).mono hkeys
  computed_nil w := (hd.computed_eq w).trans (h.computed_nil w)

/-- A function of which nothing is declared shows nothing at first. -/
theorem visible_nil (h : Gathered unit keys f d) {write : Bool} (hdecl : d.declares write = false) :
    d.visible write = [] := by
  rw [h.declares_eq] at hdecl
  refine List.eq_nil_iff_forall_not_mem.mpr fun id hid => ?_
  obtain ⟨k, hk, -⟩ := (h.spells write).named id hid
  rw [Ssa.Function.declaredKeys_eq_nil hdecl] at hk
  cases hk

end FunctionDomains.Gathered

variable {m : Ssa.Module}

theorem collectFunction_gathered (unit : String) (types : TypePool) (opt : DomainOptions)
    (f : Ssa.Function) (c : Collector) :
    let r := (collectFunction m types unit opt f).run c
    Collector.Grows c r.2 ∧ r.1.1.Gathered unit r.2.keys f := by
  have hgrow₀ : Collector.Grows c ((Collect.report (parseAnnotations f.attrs).diags).run c).2 :=
    .of_keys_eq rfl
  unfold collectFunction
  dsimp only
  cases hno : (parseAnnotations f.attrs).annotations.noState with
  | true =>
    have hdecl : ∀ w, f.declaredKeys unit w = [] := by
      intro w
      unfold Ssa.Function.declaredKeys
      rw [if_pos hno]
    refine ⟨hgrow₀, ⟨iff_of_true rfl hno, fun w => ?_, fun w => ?_, fun w k hk => ?_, fun w => ?_,
      fun w => ?_,
      fun w => ?_⟩⟩
    · rw [hno]
      cases w <;> rfl
    · cases w <;> exact List.Pairwise.nil
    · cases w <;> cases hk
    · cases w <;> exact List.Pairwise.nil
    · rw [hdecl w]
      cases w <;> exact .nil _
    · cases w <;> rfl
  | false =>
    let ann := (parseAnnotations f.attrs).annotations
    let c₀ := ((Collect.report (parseAnnotations f.attrs).diags).run c).2
    let r₁ := (collectDeclared unit ann.reads).run c₀
    let r₂ := (collectDeclared unit ann.writes).run r₁.2
    obtain ⟨hgrow₁, hincr, hreads⟩ := collectDeclared_grows unit ann.reads c₀
    obtain ⟨hgrow₂, hincw, hwrites⟩ := collectDeclared_grows unit ann.writes r₁.2
    have hgrow : Collector.Grows c r₂.2 := hgrow₀.trans (hgrow₁.trans hgrow₂)
    -- the domains before the accesses of the code are entered
    let d : FunctionDomains :=
      { reads := r₁.1, writes := r₂.1, proofs := ann.proofs
        readsDeclared := ann.reads.isSome, writesDeclared := ann.writes.isSome
        source := if ann.reads.isSome || ann.writes.isSome then .declared else .inferred }
    have hd : d.Gathered unit r₂.2.keys f := by
      refine ⟨iff_of_false ?_ (Bool.eq_false_iff.mp hno), fun w => ?_, fun w => ?_,
        fun w k hk => ?_,
        fun w => ?_, fun w => ?_, fun w => ?_⟩
      · show (if _ then DomainSource.declared else .inferred) ≠ .trusted
        split <;> exact fun h => by cases h
      · rw [hno]
        cases w <;> rfl
      · cases w <;> exact List.Pairwise.nil
      · cases w <;> cases hk
      · cases w
        · exact hincr
        · exact hincw
      · unfold Ssa.Function.declaredKeys
        rw [hno, if_neg Bool.false_ne_true]
        cases w
        · exact hreads.mono hgrow₂.keys
        · exact hwrites
      · cases w <;> rfl
    cases hexcl : f.excluded with
    | true =>
      show Collector.Grows c r₂.2 ∧ d.Gathered unit r₂.2.keys f
      exact ⟨hgrow, hd⟩
    | false =>
      obtain ⟨hgrow₃, hwidens⟩ := collectInsts_widens unit
        (keySearch m types opt.maxEnumeratedKeys f) opt.wildcardPolicy f.name (m.instsOf f) d r₂.2
      exact ⟨hgrow.trans hgrow₃, hd.widen hwidens hgrow₃.keys⟩

/-- What is collected for functions, one after the other. -/
theorem collectFunctions_gathered (unit : String) (types : TypePool) (opt : DomainOptions)
    (fs : List Ssa.Function) (c : Collector) : let r := (collectFunctions m types unit opt fs).run c
    Collector.Grows c r.2 ∧ List.Forall₂ (fun f d => d.1.Gathered unit r.2.keys f) fs r.1 := by
  induction fs generalizing c with
  | nil => exact ⟨.refl c, .nil⟩
  | cons f fs ih =>
    obtain ⟨hgrow, hgathered⟩ := collectFunction_gathered (m := m) unit types opt f c
    obtain ⟨hgrow', hall⟩ := ih ((collectFunction m types unit opt f).run c).2
    exact ⟨hgrow.trans hgrow', .cons (hgathered.mono hgrow'.keys) hall⟩

end Hashed

end ContractCompiler
