import ContractCompiler.Json.Reader
import ContractCompiler.Proofs.Hir.Checking
import ContractCompiler.Proofs.Hir.Equality
import ContractCompiler.Proofs.Hir.Paths
import ContractCompiler.Proofs.Hir.Reader.Module

/-!
# What was moved is not used

A function that passes the ownership check uses no binding after it moved it, on any path and with
loops running any number of rounds. Each binding is followed by itself: the check knows it to be
moved wherever some path has moved it.

Two rounds of a loop suffice. If the binding counts as moved when a later round begins, then nothing
more can happen to it on the way there. If it does not, then it was not moved before the loop, and
the first round, which began in the same way, did not move it either.

- `Flow.Has`: a binding counts as moved;
- `Checker.Follows`, `Checker.followsExpr_of_typed`: the check follows the paths through
  expressions;
- `Checker.Covers`, `Checker.coversStmt_of_typed`: it follows those through statements to all of
  their ends;
- `Checker.covers_loop`: two rounds suffice;
- `no_use_after_move`: what holds of every function without a violation.
-/

namespace ContractCompiler.Hir

/-! ## Flows -/

/-- A binding counts as moved. -/
def Flow.Has (f : Flow) (x : SymbolId) : Prop := f.movedAt? x ≠ none

namespace Flow

variable {f g : Flow} {x y : SymbolId}

theorem has_iff : f.Has x ↔ ∃ span, (x, span) ∈ f.moved := by
  unfold Has movedAt?
  rw [ne_eq, List.lookup_eq_none_iff]
  constructor
  · intro h
    by_contra hnone
    refine h fun p hp => ?_
    by_contra heq
    exact hnone ⟨p.2, by simpa [show x = p.1 by simpa using heq] using hp⟩
  · rintro ⟨span, hmem⟩ h
    simpa using h _ hmem

theorem has_move {span : Span} : (f.move y span).Has x ↔ f.Has x ∨ y = x := by
  simp only [has_iff, move, List.mem_append, List.mem_singleton, Prod.mk.injEq]
  constructor
  · rintro ⟨s, h | ⟨rfl, -⟩⟩
    · exact .inl ⟨s, h⟩
    · exact .inr rfl
  · rintro (⟨s, h⟩ | rfl)
    · exact ⟨s, .inl h⟩
    · exact ⟨span, .inr ⟨rfl, rfl⟩⟩

theorem has_restore : (f.restore y).Has x ↔ f.Has x ∧ y ≠ x := by
  simp only [has_iff, restore, List.mem_filter]
  constructor
  · rintro ⟨s, h, hne⟩
    exact ⟨⟨s, h⟩, fun heq => by simp [heq] at hne⟩
  · rintro ⟨⟨s, h⟩, hne⟩
    exact ⟨s, h, by simpa using fun heq => hne heq.symm⟩

/-- Where two paths meet, what either has moved counts as moved. -/
theorem has_merge (hf : f.diverged = false) (hg : g.diverged = false) :
    (f.merge g).Has x ↔ f.Has x ∨ g.Has x := by
  unfold merge
  rw [hf, hg, if_neg Bool.false_ne_true, if_neg Bool.false_ne_true]
  simp only [has_iff, List.mem_append, List.mem_filter]
  constructor
  · rintro ⟨s, h | ⟨h, -⟩⟩
    · exact .inl ⟨s, h⟩
    · exact .inr ⟨s, h⟩
  · rintro (⟨s, h⟩ | ⟨s, h⟩)
    · exact ⟨s, .inl h⟩
    · by_cases hx : f.Has x
      · obtain ⟨s', h'⟩ := has_iff.mp hx
        exact ⟨s', .inl h'⟩
      · have hnone : f.movedAt? x = none := not_not.mp hx
        exact ⟨s, .inr ⟨h, by simp [hnone]⟩⟩

theorem merge_of_diverged_left (h : f.diverged = true) : f.merge g = g := by
  unfold merge
  rw [if_pos h]

theorem merge_of_diverged_right (hf : f.diverged = false) (hg : g.diverged = true) :
    f.merge g = f := by
  unfold merge
  rw [if_neg (by rw [hf]; exact Bool.false_ne_true), if_pos hg]

theorem diverged_merge : (f.merge g).diverged = (f.diverged && g.diverged) := by
  unfold merge
  cases hf : f.diverged <;> cases hg : g.diverged <;> simp [hf, hg]

/-- A path gets to a flow on which what it has moved counts as moved. -/
def Reached (x : SymbolId) (moved : Bool) (f : Flow) : Prop :=
  f.diverged = false ∧ (moved = true → f.Has x)

theorem Reached.merge_left {moved : Bool} (h : Reached x moved f) (g : Flow) :
    Reached x moved (f.merge g) := by
  refine ⟨by rw [diverged_merge, h.1, Bool.false_and], fun hmoved => ?_⟩
  cases hg : g.diverged with
  | true => exact (merge_of_diverged_right h.1 hg).symm ▸ h.2 hmoved
  | false => exact (has_merge h.1 hg).mpr (.inl (h.2 hmoved))

theorem Reached.merge_right {moved : Bool} (h : Reached x moved g) (f : Flow) :
    Reached x moved (f.merge g) := by
  refine ⟨by rw [diverged_merge, h.1, Bool.and_false], fun hmoved => ?_⟩
  cases hf : f.diverged with
  | true => exact (merge_of_diverged_left hf).symm ▸ h.2 hmoved
  | false => exact (has_merge hf h.1).mpr (.inr (h.2 hmoved))

theorem Reached.foldl {moved : Bool} (h : Reached x moved f) (fs : List Flow) :
    Reached x moved (fs.foldl Flow.merge f) := by
  induction fs generalizing f with
  | nil => exact h
  | cons g fs ih => exact ih (h.merge_left g)

theorem Reached.foldl_mem {moved : Bool} (h : Reached x moved g) (f : Flow) {fs : List Flow}
    (hmem : g ∈ fs) : Reached x moved (fs.foldl Flow.merge f) := by
  induction fs generalizing f with
  | nil => cases hmem
  | cons g' fs ih =>
    rcases List.mem_cons.mp hmem with rfl | hmem
    · exact (h.merge_right f).foldl fs
    · exact ih (f.merge g') hmem

end Flow

namespace Checker

variable {m : Module} {types : TypePool} {c c' c'' : Checker} {x : SymbolId}

/-! ## Expressions -/

/-- A check leads along the paths of some traces, without leaving a loop. -/
structure Follows (x : SymbolId) (c c' : Checker) (ts : List Trace) : Prop where
  loops : c'.loops = c.loops
  trace : ∀ t ∈ ts, ∀ moved, c.flow.Reached x moved →
    Clean x moved t ∧ c'.flow.Reached x (movedAfter x moved t)

theorem Follows.seq {ts us : List Trace} (h : Follows x c c' ts) (h' : Follows x c' c'' us) :
    Follows x c c'' (sequence ts us) := by
  refine ⟨h'.loops.trans h.loops, fun t ht moved hmoved => ?_⟩
  obtain ⟨u, hu, v, hv, rfl⟩ := mem_sequence.mp ht
  obtain ⟨hclean, hreached⟩ := h.trace u hu moved hmoved
  obtain ⟨hclean', hreached'⟩ := h'.trace v hv _ hreached
  exact ⟨clean_append.mpr ⟨hclean, hclean'⟩, movedAfter_append x moved u v ▸ hreached'⟩

theorem follows_nothing (hloops : c'.loops = c.loops) (hflow : c'.flow = c.flow) :
    Follows x c c' [[]] := by
  refine ⟨hloops, fun t ht moved hmoved => ?_⟩
  obtain rfl := List.mem_singleton.mp ht
  exact ⟨trivial, hflow ▸ hmoved⟩

/-- A single event that the check knows what to make of. -/
theorem follows_event {e : Event} (hloops : c'.loops = c.loops)
    (hclean : ∀ moves, e = .use x moves → ¬c.flow.Has x)
    (hdiverged : c'.flow.diverged = c.flow.diverged)
    (hhas : ∀ moved, (moved = true → c.flow.Has x) → e.apply x moved = true → c'.flow.Has x) :
    Follows x c c' [[e]] := by
  refine ⟨hloops, fun t ht moved ⟨hopen, hmoved⟩ => ?_⟩
  obtain rfl := List.mem_singleton.mp ht
  refine ⟨⟨fun moves heq => ?_, trivial⟩, hdiverged.trans hopen, hhas moved hmoved⟩
  exact Bool.eq_false_iff.mpr fun htrue => hclean moves heq (hmoved htrue)

/-- What a use of a binding leaves, if there is nothing wrong with it. -/
theorem useLocal_eq {info : ExprInfo} {sym : SymbolId} {use : Use} {lasting : Bool} {s : Symbol}
    (hs : m.symbols[sym]? = some s) (ht : info.type = s.type)
    (h : (c.useLocal m types info sym use lasting).failed = false) :
    ¬c.flow.Has sym ∧ (c.useLocal m types info sym use lasting).loops = c.loops ∧
      (c.useLocal m types info sym use lasting).flow =
        if use == .value && !types.isCopy info.type then c.flow.move sym info.span else c.flow := by
  have hsym : m.symbols.getD sym default = s := by
    rw [Array.getD_eq_getD_getElem?, hs, Option.getD_some]
  unfold useLocal at h ⊢
  rw [hsym] at h ⊢
  split at h
  · simp at h
  · rename_i hnone
    refine ⟨fun hhas => hhas hnone, ?_⟩
    dsimp only at h ⊢
    split at h
    · unfold useValue at h ⊢
      rw [← ht] at h ⊢
      split at h
      · rename_i hcopy
        rw [if_pos hcopy]
        dsimp only at h ⊢
        split at h
        · simp at h
        · simp [hcopy]
      · rename_i hcopy
        rw [if_neg hcopy]
        dsimp only at h ⊢
        split at h
        · simp at h
        · rename_i hpass
          rw [if_neg hpass]
          split at h
          · simp at h
          · simp [hcopy, withFlow]
    · unfold useShared at h ⊢
      dsimp only at h ⊢
      split at h
      · simp at h
      · simp [loops_hold, flow_hold]
    · unfold useExclusive at h ⊢
      dsimp only at h ⊢
      split at h
      · simp at h
      · rename_i hmutable
        rw [if_neg hmutable]
        split at h
        · simp at h
        · simp [loops_hold, flow_hold]

theorem follows_useLocal {info : ExprInfo} {sym : SymbolId} {use : Use} {lasting : Bool}
    {s : Symbol} (hs : m.symbols[sym]? = some s) (ht : info.type = s.type)
    (h : (c.useLocal m types info sym use lasting).failed = false) :
    Follows x c (c.useLocal m types info sym use lasting)
      [[.use sym (use == .value && !types.isCopy info.type)]] := by
  obtain ⟨hunmoved, hloops, hflow⟩ := useLocal_eq hs ht h
  refine follows_event hloops (fun moves heq => ?_) ?_ fun moved hmoved happly => ?_
  · cases heq
    exact hunmoved
  · rw [hflow]
    split <;> rfl
  · rw [hflow]
    rcases Bool.or_eq_true_iff.mp happly with hmoved' | hmoves
    · split
      · exact Flow.has_move.mpr (.inl (hmoved hmoved'))
      · exact hmoved hmoved'
    · obtain ⟨heq, hmoves⟩ := Bool.and_eq_true_iff.mp hmoves
      rw [if_pos hmoves]
      exact Flow.has_move.mpr (.inr (beq_iff_eq.mp heq))

/-- The check of an expression follows the paths through it. -/
def FollowsExpr (m : Module) (types : TypePool) (x : SymbolId) (e : Expr) : Prop :=
  ∀ use c, (useExpr m types e use c).failed = false →
    Follows x c (useExpr m types e use c) (e.traces m types use)

theorem follows_useEach {es : List Expr} (hes : ∀ e ∈ es, FollowsExpr m types x e) (use : Use)
    {c : Checker} (h : (useEach m types es use c).failed = false) :
    Follows x c (useEach m types es use c) (eachTraces m types es use) := by
  induction es generalizing c with
  | nil => exact follows_nothing rfl rfl
  | cons e es ih =>
    unfold useEach at h ⊢
    unfold eachTraces
    have hfirst : (useExpr m types e use c).failed = false := by
      by_contra hfailed
      rw [useEach_of_failed (Bool.not_eq_false _ ▸ hfailed)] at h
      exact hfailed h
    exact (hes e List.mem_cons_self use c hfirst).seq
      (ih (fun e he => hes e (List.mem_cons_of_mem _ he)) h)

/-- The arguments of a call: those that are passed exclusively are names. -/
theorem follows_useArgs {args : List Expr} (htyped : ∀ a ∈ args, a.Typed (m.typeContext types))
    (hargs : ∀ a ∈ args, FollowsExpr m types x a) {params : List Param}
    (hlength : args.length = params.length)
    (hplaces : ∀ (k : Nat) a p, args[k]? = some a → params[k]? = some p → p.pass = .exclusive →
      a.local?.isSome = true) {c : Checker} (h : (useArgs m types args params c).failed = false) :
    Follows x c (useArgs m types args params c) (argTraces m types args (params.map (·.pass))) := by
  induction args generalizing params c with
  | nil =>
    unfold useArgs argTraces
    exact follows_nothing rfl rfl
  | cons a args ih =>
    cases params with
    | nil => cases hlength
    | cons p params =>
      unfold useArgs at h ⊢
      unfold argTraces
      split at h
      · rename_i hfailed
        rw [hfailed] at h
        cases h
      · rename_i hopen
        rw [if_neg hopen]
        extract_lets c₁ at h
        have hrest := ih (fun a ha => htyped a (List.mem_cons_of_mem _ ha))
          (fun a ha => hargs a (List.mem_cons_of_mem _ ha)) (Nat.succ.inj hlength)
          (fun k a p ha hp => hplaces (k + 1) a p ha hp) h
        -- a failure at this argument would have been kept to the end
        have hfirst : c₁.failed = false := by
          by_contra hfailed
          rw [useArgs_of_failed (Bool.not_eq_false _ ▸ hfailed)] at h
          exact hfailed h
        refine Follows.seq ?_ hrest
        have hlocal : ∀ {info sym use}, a = .local info sym →
            (c.useLocal m types info sym use true).failed = false →
            Follows x c (c.useLocal m types info sym use true) (a.traces m types use) := by
          rintro info sym use rfl hfailed
          cases htyped _ List.mem_cons_self with
          | «local» hs ht =>
            unfold Expr.traces
            exact follows_useLocal hs ht hfailed
        show Follows x c c₁ (a.traces m types p.pass.use)
        unfold c₁ at hfirst ⊢
        cases hpass : p.pass with
        | owned =>
          simp only [hpass] at hfirst ⊢
          exact hargs _ List.mem_cons_self _ _ hfirst
        | shared =>
          rw [hpass] at hfirst
          split at hfirst
          · exact hlocal rfl hfirst
          · cases ‹PassMode.shared = .exclusive›
          · exact hargs _ List.mem_cons_self _ _ hfirst
          · exact absurd rfl ‹PassMode.shared = .shared → False›
        | exclusive =>
          rw [hpass] at hfirst
          have hplace := hplaces 0 a p rfl rfl hpass
          cases a with
          | «local» info sym => exact hlocal rfl hfirst
          | _ => cases hplace

/-- What one expression or another leaves, where either may have been evaluated. -/
theorem Follows.merge {ts us : List Trace} (h : Follows x c c' ts) (h' : Follows x c c'' us) :
    Follows x c (c''.withFlow (c'.flow.merge c''.flow)) (ts ++ us) := by
  refine ⟨h'.loops, fun t ht moved hmoved => ?_⟩
  rcases List.mem_append.mp ht with ht | ht
  · obtain ⟨hclean, hreached⟩ := h.trace t ht moved hmoved
    exact ⟨hclean, hreached.merge_left _⟩
  · obtain ⟨hclean, hreached⟩ := h'.trace t ht moved hmoved
    exact ⟨hclean, hreached.merge_right _⟩

/-- Borrows have no part in what was moved. -/
theorem Follows.congr {ts : List Trace} {d d' : Checker} (h : Follows x c c' ts)
    (hloops : d.loops = c.loops) (hflow : d.flow = c.flow) (hloops' : d'.loops = c'.loops)
    (hflow' : d'.flow = c'.flow) : Follows x d d' ts :=
  ⟨hloops'.trans (h.loops.trans hloops.symm),
    fun t ht moved hmoved => hflow' ▸ h.trace t ht moved (hflow ▸ hmoved)⟩

/-- The check of every typed expression follows the paths through it. -/
theorem followsExpr_of_typed {e : Expr} (he : e.Typed (m.typeContext types)) :
    FollowsExpr m types x e := by
  induction he with
    (intro use c h
     have hc := not_failed_of_useExpr h
     unfold useExpr at h ⊢
     unfold Expr.traces
     simp only [hc, Bool.false_eq_true, if_false] at h ⊢)
  | int | bool | bytes | unit | context => exact follows_nothing rfl rfl
  | «local» hs ht => exact follows_useLocal hs ht h
  | neg _ _ _ ih | not _ _ _ ih | bitNot _ _ _ ih | cast _ _ _ ih | ok _ _ ih | err _ _ _ ih
  | isOk _ _ _ ih | code _ _ _ ih | unwrap _ _ ih | length _ _ _ ih | digest _ _ _ ih
  | stateGet _ _ _ _ _ ih | stateHas _ _ _ _ ih | field _ _ _ ih => exact ih _ _ h
  | compare _ _ _ _ _ _ iha ihb | arith _ _ _ _ _ _ _ iha ihb | statePut _ _ _ _ _ _ iha ihb =>
    exact (iha _ _ (not_failed_of_useExpr h)).seq (ihb _ _ h)
  | logical _ _ _ _ _ iha ihb =>
    have hb : (useExpr m types _ .value (useExpr m types _ .value c)).failed = false := h
    have ha := iha _ _ (not_failed_of_useExpr hb)
    exact ha.merge (ha.seq (ihb _ _ hb))
  | call hcallee hargs htypes hplaces ih =>
    obtain ⟨f, hf, hsig⟩ := Option.map_eq_some_iff.mp hcallee
    obtain ⟨rfl, -⟩ := Prod.mk.inj hsig
    rw [hf] at h ⊢
    have hlength := congrArg List.length htypes
    simp only [List.length_map] at hlength
    refine (follows_useArgs hargs ih hlength (fun k a p ha hp hpass => ?_) h).congr rfl rfl rfl rfl
    refine hplaces k a p.type ha ?_
    rw [List.getElem?_map, hp, Option.map_some, hpass]
  | struct _ _ _ ih | emit _ _ _ ih => exact follows_useEach ih _ h
  | @select _ cond a b _ _ _ _ _ _ ihc iha ihb =>
    split at h
    · rename_i hfailed
      rw [hfailed] at h
      cases h
    · rename_i hok
      rw [if_neg hok]
      generalize hcond : useExpr m types cond .value c = c₁ at h hok ⊢
      have hb : (useExpr m types b use ((useExpr m types a use c₁).withFlow c₁.flow)).failed =
        false := h
      have ha : ((useExpr m types a use c₁).withFlow c₁.flow).failed = false :=
        not_failed_of_useExpr hb
      have hfirst := iha use c₁ ha
      have hsecond := (ihb use _ hb).congr (d := c₁) hfirst.loops.symm rfl rfl rfl
      have hc₁ := ihc .value c (hcond.symm ▸ Bool.eq_false_iff.mpr hok)
      exact (hcond ▸ hc₁).seq (hfirst.merge hsecond)

/-! ## Statements -/

/-- The same loops, where the innermost has the same exits and maybe more. -/
inductive LoopsGrow : List LoopExits → List LoopExits → Prop where
  | nil : LoopsGrow [] []
  | cons {exits exits' : LoopExits} {rest : List LoopExits} (hstops : exits.stops ⊆ exits'.stops)
      (hnexts : exits.nexts ⊆ exits'.nexts) : LoopsGrow (exits :: rest) (exits' :: rest)

theorem LoopsGrow.refl (loops : List LoopExits) : LoopsGrow loops loops := by
  cases loops with
  | nil => exact .nil
  | cons exits rest => exact .cons (List.Subset.refl _) (List.Subset.refl _)

theorem LoopsGrow.trans {a b d : List LoopExits} (h : LoopsGrow a b) (h' : LoopsGrow b d) :
    LoopsGrow a d := by
  cases h with
  | nil => exact h'
  | cons hstops hnexts =>
    cases h' with
    | cons hstops' hnexts' =>
      exact .cons (List.Subset.trans hstops hstops') (List.Subset.trans hnexts hnexts')

/-- The check knows of an end of a path, with what was moved on it. -/
def EndsAt (c : Checker) (x : SymbolId) (moved : Bool) : Exit → Prop
  | .normal => c.flow.Reached x moved
  | .stop => ∀ exits ∈ c.loops.head?, ∃ f ∈ exits.stops, f.Reached x moved
  | .next => ∀ exits ∈ c.loops.head?, ∃ f ∈ exits.nexts, f.Reached x moved
  | .done => True

/-- The exits of the innermost loop are kept. -/
theorem EndsAt.of_grow {moved : Bool} {exit : Exit} (h : c.EndsAt x moved exit)
    (hgrow : LoopsGrow c.loops c'.loops) (hflow : exit = .normal → c'.flow.Reached x moved) :
    c'.EndsAt x moved exit := by
  cases exit with
  | normal => exact hflow rfl
  | done => trivial
  | stop =>
    unfold EndsAt at h ⊢
    generalize c.loops = loops at h hgrow
    generalize c'.loops = loops' at hgrow ⊢
    cases hgrow with
    | nil => exact h
    | cons hstops _ =>
      rintro _ ⟨⟩
      obtain ⟨f, hf, hreached⟩ := h _ rfl
      exact ⟨f, hstops hf, hreached⟩
  | next =>
    unfold EndsAt at h ⊢
    generalize c.loops = loops at h hgrow
    generalize c'.loops = loops' at hgrow ⊢
    cases hgrow with
    | nil => exact h
    | cons _ hnexts =>
      rintro _ ⟨⟩
      obtain ⟨f, hf, hreached⟩ := h _ rfl
      exact ⟨f, hnexts hf, hreached⟩

/-- A check leads along paths to all of their ends. -/
structure Covers (x : SymbolId) (c c' : Checker) (path : Trace → Exit → Prop) : Prop where
  loops : LoopsGrow c.loops c'.loops
  path : ∀ t exit, path t exit → ∀ moved, c.flow.Reached x moved →
    Clean x moved t ∧ c'.EndsAt x (movedAfter x moved t) exit

/-- Paths through an expression that go on after it. -/
theorem Follows.covers {ts : List Trace} (h : Follows x c c' ts) :
    Covers x c c' fun t exit => t ∈ ts ∧ exit = .normal := by
  refine ⟨h.loops ▸ LoopsGrow.refl _, ?_⟩
  rintro t exit ⟨ht, rfl⟩
  exact h.trace t ht

/-- Paths through an expression that leave the function after it. -/
theorem Follows.covers_done {ts : List Trace} (h : Follows x c c' ts)
    (hloops : c''.loops = c'.loops) :
    Covers x c c'' fun t exit => t ∈ ts ∧ exit = .done := by
  refine ⟨hloops ▸ h.loops ▸ LoopsGrow.refl _, ?_⟩
  rintro t exit ⟨ht, rfl⟩ moved hmoved
  exact ⟨(h.trace t ht moved hmoved).1, trivial⟩

theorem Covers.mono {path path' : Trace → Exit → Prop} (h : Covers x c c' path)
    (hpath : ∀ t exit, path' t exit → path t exit) : Covers x c c' path' :=
  ⟨h.loops, fun t exit ht => h.path t exit (hpath t exit ht)⟩

/-- Statements after an expression. -/
theorem Follows.seq_covers {ts : List Trace} {path : Trace → Exit → Prop} (h : Follows x c c' ts)
    (h' : Covers x c' c'' path) :
    Covers x c c'' fun t exit => ∃ u ∈ ts, ∃ v, t = u ++ v ∧ path v exit := by
  refine ⟨h.loops ▸ h'.loops, ?_⟩
  rintro _ exit ⟨u, hu, v, rfl, hv⟩ moved hmoved
  obtain ⟨hclean, hreached⟩ := h.trace u hu moved hmoved
  obtain ⟨hclean', hends⟩ := h'.path v exit hv _ hreached
  exact ⟨clean_append.mpr ⟨hclean, hclean'⟩, movedAfter_append x moved u v ▸ hends⟩

/-- Nothing gets past the end of the flow. -/
theorem covers_of_diverged (h : c.flow.diverged = true) (path : Trace → Exit → Prop) :
    Covers x c c path :=
  ⟨LoopsGrow.refl _, fun _ _ _ _ hmoved => absurd hmoved.1 (by rw [h]; exact Bool.noConfusion)⟩

/-- The check of a statement follows the paths through it. -/
def CoversStmt (m : Module) (types : TypePool) (x : SymbolId) (s : Stmt) : Prop :=
  ∀ c, (checkStmt m types s c).failed = false → Covers x c (checkStmt m types s c) (s.Path m types)

theorem covers_checkStmts {ss : List Stmt} (hss : ∀ s ∈ ss, CoversStmt m types x s)
    (h : (checkStmts m types ss c).failed = false) :
    Covers x c (checkStmts m types ss c) (blockPath m types ss) := by
  induction ss generalizing c with
  | nil =>
    unfold checkStmts
    refine (follows_nothing rfl rfl : Follows x c c [[]]).covers.mono ?_
    rintro t exit ⟨rfl, rfl⟩
    exact ⟨List.mem_singleton.mpr rfl, rfl⟩
  | cons s ss ih =>
    unfold checkStmts at h ⊢
    split at h
    · rename_i hover
      rw [if_pos hover]
      exact covers_of_diverged (by simpa [h] using hover) _
    · rename_i hopen
      rw [if_neg hopen]
      have hfirst : (checkStmt m types s c).failed = false := by
        by_contra hfailed
        rw [checkStmts_of_failed (Bool.not_eq_false _ ▸ hfailed)] at h
        exact hfailed h
      have hs := hss s List.mem_cons_self c hfirst
      have hrest := ih (fun s hs => hss s (List.mem_cons_of_mem _ hs)) h
      refine ⟨hs.loops.trans hrest.loops, ?_⟩
      rintro t exit (⟨hpath, hexit⟩ | ⟨u, v, rfl, hu, hv⟩) moved hmoved
      · obtain ⟨hclean, hends⟩ := hs.path t exit hpath moved hmoved
        exact ⟨hclean, hends.of_grow hrest.loops fun heq => absurd heq hexit⟩
      · obtain ⟨hclean, hreached⟩ := hs.path u .normal hu moved hmoved
        obtain ⟨hclean', hends⟩ := hrest.path v exit hv _ hreached
        exact ⟨clean_append.mpr ⟨hclean, hclean'⟩, movedAfter_append x moved u v ▸ hends⟩

theorem Covers.congr {path : Trace → Exit → Prop} {d d' : Checker} (h : Covers x c c' path)
    (hloops : d.loops = c.loops) (hflow : d.flow = c.flow) (hloops' : d'.loops = c'.loops)
    (hflow' : d'.flow = c'.flow) : Covers x d d' path := by
  refine ⟨hloops ▸ hloops' ▸ h.loops, fun t exit ht moved hmoved => ?_⟩
  obtain ⟨hclean, hends⟩ := h.path t exit ht moved (hflow ▸ hmoved)
  refine ⟨hclean, hends.of_grow (hloops' ▸ LoopsGrow.refl _) fun heq => ?_⟩
  subst heq
  exact hflow' ▸ hends

theorem covers_checkBlock {ss : List Stmt} (hss : ∀ s ∈ ss, CoversStmt m types x s)
    (h : (checkBlock m types ss c).failed = false) :
    Covers x c (checkBlock m types ss c) (blockPath m types ss) := by
  obtain ⟨hfailed, hflow, hloops⟩ := checkBlock_eq ss c
  have hstmts := covers_checkStmts (c := c.openScope []) hss (hfailed ▸ h)
  exact hstmts.congr rfl rfl hloops hflow

/-- A jump out of a round is one of the exits of the innermost loop. -/
theorem covers_leaveRound {add : LoopExits → Flow → LoopExits} {exit : Exit}
    (hstops : ∀ exits flow, exits.stops ⊆ (add exits flow).stops)
    (hnexts : ∀ exits flow, exits.nexts ⊆ (add exits flow).nexts)
    (hexit : exit = .stop ∧ (∀ exits flow, flow ∈ (add exits flow).stops) ∨
      exit = .next ∧ ∀ exits flow, flow ∈ (add exits flow).nexts) :
    Covers x c (c.leaveRound add) fun t exit' => t = [] ∧ exit' = exit := by
  constructor
  · unfold leaveRound
    cases c.loops with
    | nil => exact .nil
    | cons exits rest => exact .cons (hstops _ _) (hnexts _ _)
  · rintro t _ ⟨rfl, rfl⟩ moved hmoved
    refine ⟨trivial, ?_⟩
    rcases hexit with ⟨rfl, hadd⟩ | ⟨rfl, hadd⟩
    all_goals
      unfold EndsAt leaveRound
      cases c.loops with
      | nil => rintro _ ⟨⟩
      | cons exits rest =>
        rintro _ ⟨⟩
        exact ⟨c.flow, hadd exits c.flow, hmoved⟩

/-- One round of a loop, from the condition to the end of the body. -/
theorem round_follows {cond : Expr} {body : List Stmt} (hcond : FollowsExpr m types x cond)
    (hbody : ∀ s ∈ body, CoversStmt m types x s) (hc' : useExpr m types cond .value c = c')
    (hc'' : checkBlock m types body { c' with loops := {} :: c'.loops } = c'')
    (h : c''.failed = false) :
    ∃ exits, c''.loops = exits :: c.loops ∧
      ∀ t ∈ cond.traces m types .value, ∀ moved, c.flow.Reached x moved →
        Clean x moved t ∧ c'.flow.Reached x (movedAfter x moved t) ∧
          ∀ u exit, blockPath m types body u exit →
            Clean x moved (t ++ u) ∧ c''.EndsAt x (movedAfter x moved (t ++ u)) exit := by
  have hin : ({ c' with loops := {} :: c'.loops } : Checker).failed = false :=
    not_failed_of_checkBlock (hc''.symm ▸ h)
  have hfollows : Follows x c c' _ := hc' ▸ hcond .value c (hc'.symm ▸ hin)
  have hcovers : Covers x { c' with loops := {} :: c'.loops } c'' _ :=
    hc'' ▸ covers_checkBlock hbody (hc''.symm ▸ h)
  obtain ⟨exits, hexits⟩ : ∃ exits, c''.loops = exits :: c.loops := by
    have hloops := hcovers.loops
    dsimp only at hloops
    rw [hfollows.loops] at hloops
    generalize c''.loops = loops at hloops ⊢
    cases hloops with
    | cons _ _ => exact ⟨_, rfl⟩
  refine ⟨exits, hexits, fun t ht moved hmoved => ?_⟩
  obtain ⟨hclean, hreached⟩ := hfollows.trace t ht moved hmoved
  refine ⟨hclean, hreached, fun u exit hu => ?_⟩
  obtain ⟨hclean', hends⟩ := hcovers.path u exit hu _ hreached
  exact ⟨clean_append.mpr ⟨hclean, hclean'⟩, movedAfter_append x moved t u ▸ hends⟩

/-- A loop: the second round begins with whatever any round may begin with. -/
theorem covers_loop {span : Span} {cond : Expr} {body : List Stmt}
    (hcond : FollowsExpr m types x cond) (hbody : ∀ s ∈ body, CoversStmt m types x s) :
    CoversStmt m types x (.loop span cond body) := by
  intro c h
  obtain ⟨c₁, c₂, exits₁, d₁, c₃, c₄, exits₂, d₂, hc₁, hc₂, hleave₁, hd₁, hc₃, hc₄, hleave₂,
      hd₂, heq⟩ :=
    checkStmt_loop h
  rw [heq]
  have hok₁ : c₂.failed = false := by rw [← failed_leaveLoop, hleave₁, hd₁]
  have hok₂ : c₄.failed = false := by rw [← failed_leaveLoop, hleave₂, hd₂]
  obtain ⟨exits, hexits, hfirst⟩ := round_follows hcond hbody hc₁ hc₂ hok₁
  obtain ⟨exits', hexits', hlater⟩ := round_follows hcond hbody hc₃ hc₄ hok₂
  rw [leaveLoop_eq hexits] at hleave₁
  obtain ⟨rfl, rfl⟩ := Prod.mk.inj hleave₁
  rw [leaveLoop_eq hexits'] at hleave₂
  obtain ⟨rfl, rfl⟩ := Prod.mk.inj hleave₂
  dsimp only at hfirst hlater
  refine ⟨LoopsGrow.refl _, fun t exit hpath moved hmoved => ?_⟩
  -- the flow with which any later round begins
  set again := c.flow.merge (exits.nexts.foldl Flow.merge c₂.flow)
  have hagain : ∀ t ∈ cond.traces m types .value, ∀ u exit, blockPath m types body u exit →
      exit = .normal ∨ exit = .next → ∀ moved', again.Reached x moved' →
        again.Reached x (movedAfter x moved' (t ++ u)) := by
    intro t ht u exit hu hexit moved' hmoved'
    by_cases hhas : again.Has x
    · exact ⟨hmoved'.1, fun _ => hhas⟩
    · obtain rfl : moved' = false := Bool.eq_false_iff.mpr fun heq => hhas (hmoved'.2 heq)
      obtain ⟨-, -, hpaths⟩ := hfirst t ht false ⟨hmoved.1, Bool.noConfusion⟩
      obtain ⟨-, hends⟩ := hpaths u exit hu
      refine Flow.Reached.merge_right ?_ _
      rcases hexit with rfl | rfl
      · exact Flow.Reached.foldl hends _
      · obtain ⟨f, hf, hreached⟩ := hends exits (by rw [hexits]; rfl)
        exact hreached.foldl_mem _ hf
  replace hmoved : again.Reached x moved := hmoved.merge_left _
  induction hpath generalizing moved with
  | leave ht =>
    obtain ⟨hclean, hreached, -⟩ := hlater _ ht moved hmoved
    exact ⟨hclean, hreached.foldl _⟩
  | stop ht hu =>
    obtain ⟨-, -, hpaths⟩ := hlater _ ht moved hmoved
    obtain ⟨hclean, hends⟩ := hpaths _ _ hu
    obtain ⟨f, hf, hreached⟩ := hends exits' (by rw [hexits']; rfl)
    exact ⟨hclean, hreached.foldl_mem _ hf⟩
  | done ht hu =>
    obtain ⟨-, -, hpaths⟩ := hlater _ ht moved hmoved
    exact ⟨(hpaths _ _ hu).1, trivial⟩
  | again ht hu hexit _ ih =>
    obtain ⟨-, -, hpaths⟩ := hlater _ ht moved hmoved
    obtain ⟨hclean, -⟩ := hpaths _ _ hu
    obtain ⟨hclean', hends⟩ := ih _ (hagain _ ht _ _ hu hexit moved hmoved)
    rw [← List.append_assoc, movedAfter_append]
    exact ⟨clean_append.mpr ⟨hclean, hclean'⟩, hends⟩

/-- Two branches, checked one after the other from the same flow. -/
theorem Covers.merge {path path' : Trace → Exit → Prop} (h : Covers x c c' path)
    (h' : Covers x (c'.withFlow c.flow) c'' path') :
    Covers x c (c''.withFlow (c'.flow.merge c''.flow)) fun t exit => path t exit ∨
    path' t exit := by
  refine ⟨h.loops.trans h'.loops, ?_⟩
  rintro t exit (ht | ht) moved hmoved
  · obtain ⟨hclean, hends⟩ := h.path t exit ht moved hmoved
    refine ⟨hclean, hends.of_grow h'.loops fun heq => ?_⟩
    subst heq
    exact Flow.Reached.merge_left hends _
  · obtain ⟨hclean, hends⟩ := h'.path t exit ht moved hmoved
    refine ⟨hclean, hends.of_grow (LoopsGrow.refl _) fun heq => ?_⟩
    subst heq
    exact Flow.Reached.merge_right hends _

theorem covers_ite {span : Span} {cond : Expr} {t e : List Stmt} {hasElse : Bool}
    (hcond : FollowsExpr m types x cond) (ht : ∀ s ∈ t, CoversStmt m types x s)
    (he : ∀ s ∈ e, CoversStmt m types x s) : CoversStmt m types x (.ite span cond t hasElse e) := by
  intro c h
  unfold checkStmt at h ⊢
  dsimp only at h ⊢
  split at h
  · rename_i hfailed
    rw [hfailed] at h
    cases h
  rename_i hok
  rw [if_neg hok]
  have hc₁ : Follows x c (useExpr m types cond .value c) _ :=
    hcond .value c (Bool.eq_false_iff.mpr hok)
  generalize useExpr m types cond .value c = c₁ at h hc₁ ⊢
  have hthen : ((checkBlock m types t c₁).withFlow c₁.flow).failed = false :=
    not_failed_of_checkBlock h
  refine (hc₁.seq_covers ((covers_checkBlock ht hthen).merge (covers_checkBlock he h))).mono ?_
  intro t exit hpath
  exact hpath

/-- A whole value for a binding. -/
theorem follows_renew {sym : SymbolId} (hloops : c'.loops = c.loops)
    (hflow : c'.flow = c.flow.restore sym) :
    Follows x c c' [[.renew sym]] := by
  refine follows_event hloops (fun _ h => by cases h) (by rw [hflow]; rfl)
    fun moved hmoved happly => ?_
  obtain ⟨hmoved', hne⟩ := Bool.and_eq_true_iff.mp happly
  rw [hflow]
  exact Flow.has_restore.mpr ⟨hmoved hmoved', by simpa using hne⟩

theorem covers_assign {span : Span} {sym : SymbolId} {field : Option Nat} {e : Expr}
    (he : FollowsExpr m types x e) : CoversStmt m types x (.assign span sym field e) := by
  intro c h
  unfold checkStmt at h ⊢
  dsimp only at h ⊢
  split at h
  · rename_i hfailed
    rw [hfailed] at h
    cases h
  rename_i hok
  rw [if_neg hok]
  have hc₁ : Follows x c (useExpr m types e .value c) _ := he .value c (Bool.eq_false_iff.mpr hok)
  generalize useExpr m types e .value c = c₁ at h hc₁ ⊢
  unfold checkAssign at h ⊢
  dsimp only at h ⊢
  split at h
  · rw [failed_report] at h
    cases h
  rename_i hmutable
  rw [if_neg hmutable]
  split at h
  · rw [failed_report] at h
    cases h
  · rename_i hnone
    have huse : Follows x c₁ c₁ [[.use sym false]] := by
      refine follows_event rfl ?_ rfl fun moved hmoved happly => ?_
      · rintro moves ⟨⟩ hhas
        exact hhas hnone
      · exact hmoved (by simpa [Event.apply] using happly)
    refine (hc₁.seq huse).covers.mono fun t exit hpath => ?_
    exact hpath
  · have hrenew : Follows x c₁ (c₁.withFlow (c₁.flow.restore sym)) [[.renew sym]] :=
      follows_renew rfl rfl
    refine (hc₁.seq hrenew).covers.mono fun t exit hpath => ?_
    exact hpath

/-- The check follows the paths through every typed statement. -/
theorem coversStmt_of_typed {s : Stmt} {ret : TypeId} {inLoop : Bool}
    (hs : s.Typed (m.typeContext types) ret inLoop) : CoversStmt m types x s := by
  induction hs with
  | assign _ he _ => exact covers_assign (followsExpr_of_typed he)
  | ite hc _ _ _ _ iht ihe => exact covers_ite (followsExpr_of_typed hc) iht ihe
  | loop hc _ _ ih => exact covers_loop (followsExpr_of_typed hc) ih
  | expr he =>
    intro c h
    unfold checkStmt at h ⊢
    refine (followsExpr_of_typed he _ _ h).covers.mono fun t exit hpath => ?_
    exact hpath
  | @bind _ _ sym _ _ _ _ he _ =>
    intro c h
    unfold checkStmt at h ⊢
    dsimp only at h ⊢
    have hinit := followsExpr_of_typed (x := x) he .value c (by split at h <;> simpa using h)
    generalize useExpr m types _ .value c = c₁ at h hinit ⊢
    have hrenew :
        Follows x c₁ (if types.isCopy (m.symbolType sym) then c₁.withFlow (c₁.flow.restore sym)
        else (c₁.withFlow (c₁.flow.restore sym)).own sym) [[.renew sym]] := by
      refine follows_renew ?_ ?_ <;> split <;> simp
    refine (hinit.seq hrenew).covers.mono fun t exit hpath => ?_
    exact hpath
  | require he =>
    intro c h
    unfold checkStmt at h ⊢
    have hfollows := followsExpr_of_typed (x := x) he _ _ h
    refine ⟨hfollows.covers.loops, fun t exit hpath => ?_⟩
    obtain ⟨ht, rfl | rfl⟩ := hpath
    · exact hfollows.covers.path t _ ⟨ht, rfl⟩
    · exact (hfollows.covers_done rfl).path t _ ⟨ht, rfl⟩
  | retNone =>
    intro c h
    unfold checkStmt
    dsimp only
    refine ((follows_nothing rfl rfl : Follows x c c [[]]).covers_done ?_).mono
      fun t exit hpath => ?_
    · split <;> simp
    · exact ⟨List.mem_singleton.mpr hpath.1, hpath.2⟩
  | @ret _ _ e he =>
    intro c h
    unfold checkStmt at h ⊢
    dsimp only at h ⊢
    have hvalue : (useExpr m types e .value c).failed = false := by
      split at h
      · exact h
      · simpa using h
    refine ((followsExpr_of_typed (x := x) he _ _ hvalue).covers_done ?_).mono
      fun t exit hpath => ?_
    · split <;> simp
    · exact hpath
  | stop =>
    intro c h
    unfold checkStmt
    refine (covers_leaveRound ?_ ?_ (.inl ⟨rfl, ?_⟩)).mono fun t exit hpath => ?_
    · exact fun _ _ => List.subset_append_left _ _
    · exact fun _ _ => List.Subset.refl _
    · exact fun _ _ => List.mem_append_right _ (List.mem_singleton.mpr rfl)
    · exact hpath
  | next =>
    intro c h
    unfold checkStmt
    refine (covers_leaveRound ?_ ?_ (.inr ⟨rfl, ?_⟩)).mono fun t exit hpath => ?_
    · exact fun _ _ => List.Subset.refl _
    · exact fun _ _ => List.subset_append_left _ _
    · exact fun _ _ => List.mem_append_right _ (List.mem_singleton.mpr rfl)
    · exact hpath
  | revert | panic =>
    intro c h
    unfold checkStmt
    refine ((follows_nothing rfl rfl : Follows x c c [[]]).covers_done
      (loops_withFlow c _)).mono fun t exit hpath => ?_
    exact ⟨List.mem_singleton.mpr hpath.1, hpath.2⟩

/-- A function without a violation: nothing is used after it was moved, on any path. -/
theorem noUseAfterMove_of_checkFunction {f : Function} (hf : f.Typed (m.typeContext types))
    {accesses : Accesses} {counting : Bool}
    (h : (checkFunction m types f accesses counting).failed = false) {t : Trace} {exit : Exit}
    (hpath : blockPath m types f.body t exit) : t.NoUseAfterMove := by
  refine noUseAfterMove_of_clean fun x => ?_
  unfold checkFunction at h
  extract_lets params start c₁ c₂ at h
  have hbody : c₁.failed = false := by
    unfold c₂ at h
    split at h <;> simpa using h
  have hcovers : Covers x _ c₁ (blockPath m types f.body) :=
    covers_checkBlock (fun s hs => coversStmt_of_typed (hf.body s hs)) hbody
  exact (hcovers.path t exit hpath false ⟨rfl, Bool.noConfusion⟩).1

end Checker

/-! ## Modules -/

theorem Trace.NoUseAfterMove.initial {t u : Trace} (h : u.NoUseAfterMove) (hpre : t <+: u) :
    t.NoUseAfterMove := by
  obtain ⟨rest, rfl⟩ := hpre
  rintro before sym moves after rfl
  exact h before sym moves (after ++ rest) (by simp)

/-- On every path through a function that passes the check, and on every part of a path from its
start, no binding is used after it was moved before it has a value again. -/
theorem no_use_after_move [Json.Library] {text docName : String} {sources : Sources}
    {doc : ReadOutcome} (hdoc : readDocument text docName {} sources = doc) (hok : doc.ok = true)
    {counting : Bool} {id : FuncId} {f : Function} (hf : doc.module.functions[id]? = some f)
    (hcheck : (checkOwnership doc.module doc.types counting).functionOk[id]? = some true)
    {u : Trace} {exit : Exit} (hpath : blockPath doc.module doc.types f.body u exit) {t : Trace}
    (hpre : t <+: u) : t.NoUseAfterMove := by
  have htyped : doc.module.Typed doc.types := by
    subst hdoc
    exact (typed_readDocument text docName TypePool.sound_default sources).2 hok
  have hfunction : f.Typed (doc.module.typeContext doc.types) :=
    htyped.functions f (Array.mem_of_getElem? hf)
  rw [← Array.getElem?_toList] at hf
  rw [← Nat.zero_add id] at hcheck
  obtain ⟨accesses, hfailed⟩ := functionOk_checkFunctions hf hcheck
  exact (Checker.noUseAfterMove_of_checkFunction hfunction hfailed hpath).initial hpre

/-! ### A function that moves a byte string out of a binding and back in every round -/

/-- The function as a document. -/
def shuttleText : String :=
  "\x7b\"unit\":\"t\",\"fns\":[\x7b\"name\":\"f\",\"params\":[[\"x\",\"bytes\",\"var\"]]," ++
  "\"body\":[\x7b\"while\":true,\"body\":[" ++
  "\x7b\"let\":\"y\",\"init\":\"x\"\x7d,\x7b\"set\":\"x\",\"value\":\"y\"\x7d]\x7d]\x7d]\x7d"

/-- What the document says. -/
def shuttleJson : Json := .object
  [("fns", .array [.object
      [("body", .array [.object
          [("body", .array [.object [("init", .string "x"), ("let", .string "y")],
            .object [("set", .string "x"), ("value", .string "y")]]),
          ("while", .bool true)]]),
        ("name", .string "f"),
        ("params", .array [.array [.string "x", .string "bytes", .string "var"]])]]),
    ("unit", .string "t")]

/-- The loop of the function. -/
def shuttleBody : List Stmt :=
  [.bind {} 1 (.local ⟨1, {}, Builtin.bytes.id⟩ 0),
    .assign {} 0 none (.local ⟨2, {}, Builtin.bytes.id⟩ 1)]

/-- The function that is read. -/
def shuttleFunction : Function where
  name := "f"
  ret := Builtin.unit.id
  params := [{ name := "x", type := Builtin.bytes.id, mutable := true, sym := 0 }]
  body := [.loop {} (.bool ⟨0, {}, Builtin.bool.id⟩ true) shuttleBody]

/-- The program that is read. -/
def shuttleHir : Module where
  unit := "t"
  functions := #[shuttleFunction]
  symbols := #[{ name := "x", type := Builtin.bytes.id, mutable := true, pass := some .owned },
    { name := "y", type := Builtin.bytes.id }]
  stmtCount := 3
  exprCount := 3

set_option maxRecDepth 100000 in
theorem parse_shuttleText : @Json.Library.parse? .standard shuttleText = some shuttleJson := by
  apply Json.parse?_eq_of_value?
  · unfold shuttleText
    iterate 2 apply Json.toList_append_eq
    all_goals exact Json.toList_eq_of_ofList rfl
  · unfold shuttleJson
    dsimp only [List.cons_append, List.nil_append]
    with_unfolding_all rfl

theorem read_shuttleText :
    ∃ doc, @readDocument .standard shuttleText "t" {} {} = doc ∧ doc.module = shuttleHir ∧
    doc.types = {} ∧ doc.ok = true := by
  refine ⟨_, rfl, ?_⟩
  unfold readDocument
  rw [parse_shuttleText]
  decide +kernel

/-- What happens in one round. -/
def shuttleRound : Trace := [.use 0 true, .renew 1, .use 1 true, .renew 0]

theorem blockPath_shuttleBody : blockPath shuttleHir {} shuttleBody shuttleRound .normal := by
  have hbind : Stmt.Path shuttleHir {} (.bind {} 1 (.local ⟨1, {}, Builtin.bytes.id⟩ 0))
      [.use 0 true, .renew 1] .normal := by
    unfold Stmt.Path
    exact ⟨by decide +kernel, rfl⟩
  have hassign : Stmt.Path shuttleHir {} (.assign {} 0 none (.local ⟨2, {}, Builtin.bytes.id⟩ 1))
      [.use 1 true, .renew 0] .normal := by
    unfold Stmt.Path
    exact ⟨by decide +kernel, rfl⟩
  unfold shuttleBody blockPath
  refine .inr ⟨_, _, rfl, hbind, ?_⟩
  unfold blockPath
  refine .inr ⟨_, [], rfl, hassign, ?_⟩
  unfold blockPath
  exact ⟨rfl, rfl⟩

/-- Two rounds of the loop. -/
theorem blockPath_shuttle :
    blockPath shuttleHir {} shuttleFunction.body (shuttleRound ++ shuttleRound) .normal := by
  have hcond : [] ∈ (Expr.bool ⟨0, {}, Builtin.bool.id⟩ true).traces shuttleHir {} .value := by
    unfold Expr.traces
    exact List.mem_singleton.mpr rfl
  unfold shuttleFunction blockPath
  refine .inr ⟨_, [], (List.append_nil _).symm, ?_, ?_⟩
  · unfold Stmt.Path
    have hlast : Rounds ((Expr.bool ⟨0, {}, Builtin.bool.id⟩ true).traces shuttleHir {} .value)
      (blockPath shuttleHir {} shuttleBody) _ .normal :=
      .again hcond blockPath_shuttleBody (.inl rfl) (.leave hcond)
    exact .again hcond blockPath_shuttleBody (.inl rfl) hlast
  · unfold blockPath
    exact ⟨rfl, rfl⟩

/-- The byte string is moved in the first round, and is used again in the second. -/
theorem no_use_after_move_shuttle : (shuttleRound ++ shuttleRound).NoUseAfterMove := by
  obtain ⟨doc, hdoc, hmodule, htypes, hok⟩ := read_shuttleText
  have hf : doc.module.functions[0]? = some shuttleFunction := by
    rw [hmodule]
    rfl
  have hcheck : (checkOwnership doc.module doc.types true).functionOk[0]? = some true := by
    rw [hmodule, htypes]
    unfold shuttleHir shuttleFunction shuttleBody
    -- the check of statements does not compute by itself, so it is unrolled first
    simp -zeta only [checkOwnership, checkFunctions, Checker.checkFunction, Checker.checkBlock,
      Checker.checkStmts, Checker.checkStmt]
    decide +kernel
  have hpath : blockPath doc.module doc.types shuttleFunction.body (shuttleRound ++ shuttleRound)
      .normal := by
    rw [hmodule, htypes]
    exact blockPath_shuttle
  exact @no_use_after_move .standard _ _ _ _ hdoc hok _ _ _ hf hcheck _ _ hpath _
    (List.prefix_refl _)

end ContractCompiler.Hir
