import ContractCompiler.Proofs.CallGraph
import ContractCompiler.Proofs.Ssa.Verified

/-!
# Loop depth counts natural loops

How deep a block stands in loops is in how many natural loops it is, of those whose edge back can be
reached. What cannot be reached adds nothing: an edge back from there leads to its own start, and a
search backwards that comes to such blocks never returns to one that can be reached.

- `Module.ClosesLoop`, `Module.InLoop`: edges back and natural loops, in terms of paths;
- `Walk.seen_visit_of_closed`: what is known of the nodes that a visit meets;
- `exists_path_of_mem_loopBody`, `mem_loopBody`: the search backwards from some latches finds what
  leads to them on a path that the header is not on;
- `mem_backEdges_iff`: the edges back that start at a block that can be reached;
- `mem_of_mem_loopBody`: it does not leave the blocks that the header dominates;
- `loopDepths_eq_card`: how often a block that can be reached is found;
- `loopDepths_exact`: all of it together.
-/

namespace ContractCompiler.Ssa

/-! ## Loops -/

/-- An edge closes a loop: its start can be reached, and its target is on every path to its
start. -/
def Module.ClosesLoop (m : Module) (f : Function) (entry latch header : BlockId) : Prop :=
  (∃ path, m.Path f entry path latch) ∧ m.Edge f latch header ∧ ∀ path, m.Path f entry path latch →
    header ∈ path

/-- A block is in the natural loop of a header: it is the header, or it leads to the start of an
edge that closes a loop of the header, on a path that the header is not on. -/
def Module.InLoop (m : Module) (f : Function) (entry header b : BlockId) : Prop :=
  ∃ latch, m.ClosesLoop f entry latch header ∧
    (b = header ∨ ∃ path, m.Path f b path latch ∧ header ∉ path)

/-! ## What a visit can meet -/

namespace Walk

variable {next : Nat → List Nat} {S P : Nat → Prop}

/-- If the nodes of `S` have been met and `P` is closed under steps to other nodes, visits of nodes
of `P` meet only nodes of `P`. -/
theorem seen_foldl_of_closed {visitOne : Walk → Nat → Walk}
    (hgrows : ∀ w n x, w.Seen x → (visitOne w n).Seen x)
    (hvisit : ∀ w n, (∀ x, S x → w.Seen x) → (¬S n → P n) → ∀ x, (visitOne w n).Seen x →
      w.Seen x ∨ P x) (ns : List Nat) : ∀ w, (∀ x, S x → w.Seen x) → (∀ n ∈ ns, ¬S n → P n) →
      ∀ x, (ns.foldl visitOne w).Seen x → w.Seen x ∨ P x := by
  induction ns with
  | nil => exact fun w _ _ x hx => .inl hx
  | cons n ns ih =>
    intro w hS hns x hx
    rcases ih (visitOne w n) (fun y hy => hgrows w n y (hS y hy))
      (fun c hc => hns c (List.mem_cons_of_mem n hc)) x hx with hx | hx
    · exact hvisit w n hS (hns n List.mem_cons_self) x hx
    · exact .inr hx

theorem seen_visit_of_closed (hclosed : ∀ x, P x → ∀ c ∈ next x, ¬S c → P c) (depth : Nat) :
    ∀ w n, (∀ x, S x → w.Seen x) → (¬S n → P n) → ∀ x, (visit next depth w n).Seen x →
      w.Seen x ∨ P x := by
  induction depth with
  | zero => exact fun w n _ _ x hx => .inl hx
  | succ depth ih =>
    intro w n hS hn x hx
    cases hmet : w.met n with
    | true =>
      rw [visit_of_met hmet] at hx
      exact .inl hx
    | false =>
      have hlt := lt_size_of_met hmet
      have hPn : P n := hn fun hSn => (met_eq_false_iff hlt).mp hmet (hS n hSn)
      rw [visit, if_neg (by rw [hmet]; exact Bool.false_ne_true), seen_leave] at hx
      have hfold := seen_foldl_of_closed (fun w n => (visit_grows next depth w n).2) ih
          (next n) (w.meet n)
        (fun y hy => (seen_meet hlt y).mpr (.inl (hS y hy))) (hclosed n hPn) x hx
      rcases hfold with hmeet | hP
      · rcases (seen_meet hlt x).mp hmeet with hseen | rfl
        · exact .inl hseen
        · exact .inr hPn
      · exact .inr hP

end Walk

/-! ## The search backwards -/

section LoopBody

variable {m : Module} {f : Function} {header b : BlockId} {latches : List BlockId}

/-- The search backwards from some blocks with an edge to the header finds the header and what leads
to one of them on a path that the header is not on. -/
theorem seen_loopBody_iff {preds : Array (List BlockId)}
    (hpreds : ∀ b, ∀ p ∈ preds.getD b [], p < preds.size) (hheader : header < preds.size)
    (hlatches : ∀ x ∈ latches, x ∈ preds.getD header []) :
    (loopBody preds header latches).getD b false = true ↔ b = header ∨
      ∃ x ∈ latches, x ≠ header ∧ Walk.Reach (fun y => (preds.getD y []).filter (· != header))
        x b := by
  let next : BlockId → List BlockId := fun y => preds.getD y []
  have hstart : header < (Walk.start preds.size).seen.size := by rwa [Walk.size_start]
  have hsize : ((Walk.start preds.size).meet header).seen.size = preds.size := by
    rw [Walk.size_meet, Walk.size_start]
  have hseen (x : BlockId) : ((Walk.start preds.size).meet header).Seen x ↔ x = header := by
    rw [Walk.seen_meet hstart]
    simp [Walk.not_seen_start]
  have hbody : (loopBody preds header latches).getD b false = true ↔
      (latches.foldl (Walk.visit next preds.size) ((Walk.start preds.size).meet header)).Seen
        b := by
    unfold loopBody Walk.visitAll
    rw [hsize]
    exact Iff.rfl
  rw [hbody]
  constructor
  · intro hb
    refine (Walk.seen_foldl_of_closed (S := (· = header)) (P := fun y => ∃ x ∈ latches, x ≠ header ∧
        Walk.Reach (fun y => (preds.getD y []).filter (· != header)) x y)
      (fun w n => (Walk.visit_grows next _ w n).2)
        (Walk.seen_visit_of_closed ?_ preds.size) latches _
      (fun x hx => (hseen x).mpr hx) (fun x hx hne => ⟨x, hx, hne, .refl x⟩) b hb).imp_left
      (hseen b).mp
    rintro y ⟨x, hx, hne, hreach⟩ c hc hnot
    exact ⟨x, hx, hne, hreach.trans (.single (List.mem_filter.mpr ⟨hc, bne_iff_ne.mpr hnot⟩))⟩
  · intro hb
    have hunmet : ((Walk.start preds.size).meet header).unmet ≤ preds.size :=
      (Walk.unmet_meet hstart (Walk.not_seen_start _ _)).le.trans (Walk.unmet_start_le _)
    have hnext : ∀ b, ∀ p ∈ next b, p < preds.size := hpreds
    obtain ⟨new, hv, -, hself⟩ := Walk.visits_foldl (Walk.visits_visit hnext preds.size) latches
      ((Walk.start preds.size).meet header) hsize hunmet fun x hx => hpreds header x (hlatches x hx)
    rcases hb with rfl | ⟨x, hx, hne, hreach⟩
    · exact (hv.seen_iff _).mpr (.inl ((hseen _).mpr rfl))
    · -- what has been met apart from the header has all its predecessors met
      refine (hreach.mem_of_closed (P := fun y => (latches.foldl (Walk.visit next preds.size)
        ((Walk.start preds.size).meet header)).Seen y ∧ y ≠ header) ⟨hself x hx, hne⟩ ?_).1
      rintro y ⟨hy, hyne⟩ c hc
      obtain ⟨hc, hcne⟩ := List.mem_filter.mp hc
      have hnew : y ∈ new := ((hv.seen_iff y).mp hy).resolve_left fun h => hyne ((hseen y).mp h)
      exact ⟨hv.seen_next y hnew c hc, bne_iff_ne.mp hcne⟩

/-- Steps to predecessors past the header are paths that the header is not on. -/
theorem exists_path_of_reach {x : BlockId} (hne : x ≠ header)
    (h : Walk.Reach (fun y => ((m.cfg f).predecessors.getD y []).filter (· != header)) x b) :
    ∃ path, m.Path f b path x ∧ header ∉ path := by
  induction h with
  | refl => exact ⟨[x], .here x, by simpa using hne.symm⟩
  | @tail y c _ hc ih =>
    obtain ⟨path, hpath, hnot⟩ := ih
    obtain ⟨hc, hcne⟩ := List.mem_filter.mp hc
    obtain ⟨hedge, hlisted, -⟩ := Module.mem_successors_cfg.mp (Cfg.mem_predecessors.mp hc).2.1
    refine ⟨c :: path, .step hedge hlisted hpath, ?_⟩
    rw [List.mem_cons, not_or]
    exact ⟨fun heq => bne_iff_ne.mp hcne heq.symm, hnot⟩

theorem reach_of_path (hblocks : ∀ b ∈ f.blocks, b < m.blocks.size) {x : BlockId}
    {path : List BlockId} (hpath : m.Path f b path x) (hb : b ∈ f.blocks) (hnot : header ∉ path) :
    Walk.Reach (fun y => ((m.cfg f).predecessors.getD y []).filter (· != header)) x b := by
  induction hpath with
  | here => exact .refl _
  | @step b next target path hedge hnext _ ih =>
    rw [List.mem_cons, not_or] at hnot
    have hlt := hblocks next hnext
    have hpred : b ∈ (m.cfg f).predecessors.getD next [] :=
      Cfg.mem_predecessors.mpr ⟨hb, Module.mem_successors_cfg.mpr ⟨hedge, hnext, hlt⟩, hlt⟩
    exact (ih hnext hnot.2).trans
      (.single (List.mem_filter.mpr ⟨hpred, bne_iff_ne.mpr (Ne.symm hnot.1)⟩))

section Function

variable (hblocks : ∀ b ∈ f.blocks, b < m.blocks.size) (hheader : header ∈ f.blocks)
  (hlatches : ∀ x ∈ latches, x ∈ f.blocks ∧ m.Edge f x header)

include hblocks hheader hlatches

theorem mem_loopBody_iff_reach :
    (loopBody (m.cfg f).predecessors header latches).getD b false = true ↔
    b = header ∨ ∃ x ∈ latches, x ≠ header ∧
      Walk.Reach (fun y => ((m.cfg f).predecessors.getD y []).filter (· != header)) x b := by
  have hlt := hblocks header hheader
  refine seen_loopBody_iff (fun _ p hp => ?_) (by rwa [Cfg.size_predecessors]) fun x hx => ?_
  · rw [Cfg.size_predecessors]
    exact hblocks p (Cfg.mem_predecessors.mp hp).1
  · obtain ⟨hlisted, hedge⟩ := hlatches x hx
    exact Cfg.mem_predecessors.mpr ⟨hlisted, Module.mem_successors_cfg.mpr hedge, hlt⟩

/-- The search backwards finds only the header, and what leads to one of the latches on a path that
the header is not on. -/
theorem exists_path_of_mem_loopBody
    (hb : (loopBody (m.cfg f).predecessors header latches).getD b false = true) :
    b = header ∨ ∃ x ∈ latches, ∃ path, m.Path f b path x ∧ header ∉ path :=
  ((mem_loopBody_iff_reach hblocks hheader hlatches).mp hb).imp_right fun ⟨x, hx, hne, hreach⟩ =>
    ⟨x, hx, exists_path_of_reach hne hreach⟩

/-- And it finds all that does. -/
theorem mem_loopBody (hb : b ∈ f.blocks)
    (hloop : b = header ∨ ∃ x ∈ latches, ∃ path, m.Path f b path x ∧ header ∉ path) :
    (loopBody (m.cfg f).predecessors header latches).getD b false = true :=
  (mem_loopBody_iff_reach hblocks hheader hlatches).mpr <| hloop.imp_right
      fun ⟨x, hx, _, hpath, hnot⟩ =>
    ⟨x, hx, fun heq => hnot (heq ▸ hpath.target_mem), reach_of_path hblocks hpath hb hnot⟩

end Function

end LoopBody

/-! ## Edges back -/

/-- The starts of the edges back to a header. -/
def Module.latches (m : Module) (f : Function) (header : BlockId) : List BlockId :=
  (((m.cfg f).backEdges (m.cfg f).dominance).filter (·.header == header)).map (·.latch)

section Paths

variable {m : Module} {f : Function} {entry a b c : BlockId}

theorem Module.Path.append {path path' : List BlockId} (h : m.Path f a path b)
    (h' : m.Path f b path' c) :
    ∃ way, m.Path f a way c ∧ ∀ x ∈ way, x ∈ path ∨ x ∈ path' := by
  induction h with
  | here b => exact ⟨path', h', fun x hx => .inr hx⟩
  | @step a next b path hedge hnext _ ih =>
    obtain ⟨way, hway, hall⟩ := ih h'
    refine ⟨a :: way, .step hedge hnext hway, fun x hx => ?_⟩
    rcases List.mem_cons.mp hx with rfl | hx
    · exact .inl List.mem_cons_self
    · exact (hall x hx).imp_left (List.mem_cons_of_mem a)

theorem Module.Path.mem_blocks {path : List BlockId} (h : m.Path f a path b) (ha : a ∈ f.blocks) :
    b ∈ f.blocks := by
  induction h with
  | here => exact ha
  | step _ hnext _ ih => exact ih hnext

variable (hentry : f.entry = some entry) (hmem : entry ∈ f.blocks)
  (hblocks : ∀ b ∈ f.blocks, b < m.blocks.size)

include hentry hmem hblocks

/-- A block dominates another that can be reached exactly if it is on every path to it. -/
theorem dominates_iff_forall_path (hb : ∃ path, m.Path f entry path b) :
    (m.cfg f).dominance.dominates a b = true ↔ a ∈ f.blocks ∧ ∀ path, m.Path f entry path b →
      a ∈ path := by
  rw [dominates_eq_true_iff hentry hblocks hmem, isReached_iff_path hblocks hentry hmem,
    ← exists_path_around_iff hblocks]
  constructor
  · rintro ⟨ha, -, rfl | ⟨-, havoid⟩⟩
    · exact ⟨ha, fun path hpath => hpath.target_mem⟩
    · refine ⟨ha, fun path hpath => ?_⟩
      by_contra hnot
      exact havoid ⟨path, hpath, hnot⟩
  · rintro ⟨ha, hall⟩
    obtain ⟨path, hpath⟩ := hb
    exact ⟨ha, hpath.mem_blocks hmem, .inr ⟨⟨path, hpath⟩,
      fun ⟨path, hpath, hnot⟩ => hnot (hall path hpath)⟩⟩

omit hentry hmem hblocks in
theorem mem_backEdges_iff {g : Cfg} {d : Dominance} {latch header : BlockId} :
    ⟨latch, header⟩ ∈ g.backEdges d ↔
      latch ∈ g.blocks ∧ header ∈ g.successors latch ∧ d.dominates header latch = true := by
  simp only [Cfg.backEdges, List.mem_flatMap, List.mem_map, List.mem_filter, BackEdge.mk.injEq]
  constructor
  · rintro ⟨x, hx, s, ⟨hs, hdom⟩, rfl, rfl⟩
    exact ⟨hx, hs, hdom⟩
  · rintro ⟨hx, hs, hdom⟩
    exact ⟨latch, hx, header, ⟨hs, hdom⟩, rfl, rfl⟩

/-- The edges back from blocks that can be reached are those that close loops. -/
theorem closesLoop_iff {latch header : BlockId} : m.ClosesLoop f entry latch header ↔
    (∃ path, m.Path f entry path latch) ∧ ⟨latch, header⟩ ∈
    (m.cfg f).backEdges (m.cfg f).dominance := by
  rw [mem_backEdges_iff]
  constructor
  · rintro ⟨hreached, hedge, hall⟩
    obtain ⟨path, hpath⟩ := hreached
    exact ⟨⟨path, hpath⟩, hpath.mem_blocks hmem, Module.mem_successors_cfg.mpr hedge,
      (dominates_iff_forall_path hentry hmem hblocks ⟨path, hpath⟩).mpr ⟨hedge.2.1, hall⟩⟩
  · rintro ⟨hreached, -, hedge, hdom⟩
    exact ⟨hreached, Module.mem_successors_cfg.mp hedge,
      ((dominates_iff_forall_path hentry hmem hblocks hreached).mp hdom).2⟩

/-- An edge back from a block that cannot be reached leads to its own start. -/
theorem reached_of_backEdge {latch header : BlockId}
    (h : ⟨latch, header⟩ ∈ (m.cfg f).backEdges (m.cfg f).dominance)
    (hheader : ∃ path, m.Path f entry path header) :
    ∃ path, m.Path f entry path latch := by
  obtain ⟨-, -, hdom⟩ := mem_backEdges_iff.mp h
  obtain ⟨-, -, rfl | ⟨hreached, -⟩⟩ := (dominates_eq_true_iff hentry hblocks hmem).mp hdom
  · exact hheader
  · exact (isReached_iff_path hblocks hentry hmem).mp hreached

omit hentry in
/-- The search backwards from edges that close loops does not leave the blocks that the header
dominates: the way on from a block that it finds would lead past the header. -/
theorem mem_of_mem_loopBody {header : BlockId} {latches : List BlockId}
    (hheader : header ∈ f.blocks) (hlatches : ∀ x ∈ latches, m.ClosesLoop f entry x header)
    (hb : (loopBody (m.cfg f).predecessors header latches).getD b false = true)
    {path : List BlockId} (hpath : m.Path f entry path b) : header ∈ path := by
  have hback (x : BlockId) (hx : x ∈ latches) : x ∈ f.blocks ∧ m.Edge f x header := by
    obtain ⟨⟨path, hpath⟩, hedge, -⟩ := hlatches x hx
    exact ⟨hpath.mem_blocks hmem, hedge⟩
  rcases exists_path_of_mem_loopBody hblocks hheader hback hb with rfl |
    ⟨x, hx, path', hpath', hnot⟩
  · exact hpath.target_mem
  · obtain ⟨way, hway, hall⟩ := hpath.append hpath'
    exact (hall header ((hlatches x hx).2.2 way hway)).resolve_right hnot

/-! ## Depths -/

omit hentry hmem hblocks in
theorem mem_latches_iff {latch header : BlockId} :
    latch ∈ m.latches f header ↔ ⟨latch, header⟩ ∈ (m.cfg f).backEdges (m.cfg f).dominance := by
  simp only [Module.latches, List.mem_map, List.mem_filter, beq_iff_eq]
  constructor
  · rintro ⟨⟨x, h⟩, ⟨hmem, rfl⟩, rfl⟩
    exact hmem
  · exact fun h => ⟨⟨latch, header⟩, ⟨h, rfl⟩, rfl⟩

/-- A block that can be reached is in the loops whose searches find it. -/
theorem inLoop_iff {header : BlockId} (hb : ∃ path, m.Path f entry path b) :
    m.InLoop f entry header b ↔
    (∃ latch, ⟨latch, header⟩ ∈ (m.cfg f).backEdges (m.cfg f).dominance) ∧
      (loopBody (m.cfg f).predecessors header (m.latches f header)).getD b false = true := by
  obtain ⟨path, hpath⟩ := hb
  have hback (x : BlockId) (hx : x ∈ m.latches f header) : x ∈ f.blocks ∧ m.Edge f x header := by
    obtain ⟨hx, hsucc, -⟩ := mem_backEdges_iff.mp (mem_latches_iff.mp hx)
    exact ⟨hx, Module.mem_successors_cfg.mp hsucc⟩
  constructor
  · rintro ⟨latch, hcloses, hloop⟩
    obtain ⟨-, hedge⟩ := (closesLoop_iff hentry hmem hblocks).mp hcloses
    exact ⟨⟨latch, hedge⟩, mem_loopBody hblocks hcloses.2.1.2.1 hback (hpath.mem_blocks hmem)
      (hloop.imp_right fun hway => ⟨latch, mem_latches_iff.mpr hedge, hway⟩)⟩
  · rintro ⟨⟨latch, hedge⟩, hfound⟩
    have hheader : header ∈ f.blocks :=
      (Module.mem_successors_cfg.mp (mem_backEdges_iff.mp hedge).2.1).2.1
    rcases exists_path_of_mem_loopBody hblocks hheader hback hfound with rfl |
      ⟨x, hx, way, hway, hnot⟩
    · have hreached := reached_of_backEdge hentry hmem hblocks hedge ⟨path, hpath⟩
      exact ⟨latch, (closesLoop_iff hentry hmem hblocks).mpr ⟨hreached, hedge⟩, .inl rfl⟩
    · obtain ⟨path', hpath', -⟩ := hpath.append hway
      have hcloses := (closesLoop_iff hentry hmem hblocks).mpr
        ⟨⟨path', hpath'⟩, mem_latches_iff.mp hx⟩
      exact ⟨x, hcloses, .inr ⟨way, hway, hnot⟩⟩

/-- The depth of a block that can be reached is the number of headers whose loop it is in. -/
theorem loopDepths_eq_card (hb : ∃ path, m.Path f entry path b) : ∃ headers : Finset BlockId,
    (∀ header, header ∈ headers ↔ m.InLoop f entry header b) ∧
    (m.loopDepths f)[b]? = some headers.card := by
  let found : BlockId → Bool := fun header =>
    (loopBody (m.cfg f).predecessors header (m.latches f header)).getD b false
  let headers := (((m.cfg f).backEdges (m.cfg f).dominance).map (·.header)).eraseDups
  have hnodup : (headers.filter found).Nodup := (nodup_eraseDups _ _ (Nat.le_refl _)).filter _
  refine ⟨(headers.filter found).toFinset, fun header => ?_, ?_⟩
  · rw [inLoop_iff hentry hmem hblocks hb, List.mem_toFinset, List.mem_filter, List.mem_eraseDups,
      List.mem_map]
    refine and_congr_left fun _ => ⟨?_, fun ⟨latch, hedge⟩ => ⟨_, hedge, rfl⟩⟩
    rintro ⟨⟨latch, header⟩, hedge, rfl⟩
    exact ⟨latch, hedge⟩
  · obtain ⟨path, hpath⟩ := hb
    have hlt : b < m.blocks.size := hblocks b (hpath.mem_blocks hmem)
    have hdepth : (m.loopDepths f)[b]? = some (headers.countP found) := by
      unfold Module.loopDepths
      simp only [entry_cfg hentry (hblocks entry hmem), Option.isNone_some,
        Bool.false_eq_true, if_false, Array.getElem?_map, Array.getElem?_range, if_pos hlt,
        Option.map_some, List.countP_map]
      rfl
    rw [hdepth, List.countP_eq_length_filter, List.toFinset_card_of_nodup hnodup]

end Paths

/-- In a function without faults, the depth of a block that can be reached is the number of headers
whose loop it is in. The search backwards from edges that close loops of a header finds only blocks
that have the header on every path to them: the header dominates those that can be reached, and the
others have no path to them. -/
theorem loopDepths_exact {m : Module} {requireReachable : Bool}
    (hverify : m.verify requireReachable = []) {id : FuncId} {f : Function}
    (hf : m.functions[id]? = some f) (hincl : f.excluded = false) :
    ∃ entry, f.entry = some entry ∧
      (∀ b, (∃ path, m.Path f entry path b) → ∃ headers : Finset BlockId,
        (∀ header, header ∈ headers ↔ m.InLoop f entry header b) ∧
        (m.loopDepths f)[b]? = some headers.card) ∧
      ∀ header latches, header ∈ f.blocks → (∀ x ∈ latches, m.ClosesLoop f entry x header) → ∀ b,
        (loopBody (m.cfg f).predecessors header latches).getD b false = true →
          (∀ path, m.Path f entry path b → header ∈ path) ∧
          ((∃ path, m.Path f entry path b) → (m.cfg f).dominance.dominates header b = true) := by
  have hverified := Module.verified_of_verify hverify hf hincl
  obtain ⟨entry, hmem, hentry⟩ := hverified.entry
  have hblocks := hverified.blocks_lt
  refine ⟨entry, hentry, fun b => loopDepths_eq_card hentry hmem hblocks, ?_⟩
  intro header latches hheader hlatches b hfound
  have hall (path : List BlockId) (hpath : m.Path f entry path b) : header ∈ path :=
    mem_of_mem_loopBody hmem hblocks hheader hlatches hfound hpath
  exact ⟨hall, fun hreached => (dominates_iff_forall_path hentry hmem hblocks hreached).mpr
    ⟨hheader, hall⟩⟩

/-- Two loops in each other, with two edges back to the header of the outer one, and a block that
leads into the inner one but cannot be reached. -/
def nestedModule : Module where
  functions := #[{ name := "nested", paramTypes := [Builtin.bool.id], paramModes := [.owned],
                   ret := Builtin.unit.id
                   blocks := [0, 1, 2, 3, 4, 5], entry := some 0 }]
  blocks := #[{ params := [0], term := some (.jump 1 []) },
              { term := some (.branch 0 2 [] 5 []) },
              { term := some (.branch 0 3 [] 1 []) },
              { term := some (.branch 0 2 [] 1 []) },
              { term := some (.jump 3 []) },
              { term := some (.ret none) }]
  values := #[{ type := Builtin.bool.id, site := .param 0 0 }]

/-- The block at the end of the inner loop is in both loops. The search for the inner loop finds the
block that cannot be reached too, to which every path would lead past the header. -/
theorem loopDepths_exact_nested : nestedModule.verify = [] ∧
    (∃ headers : Finset BlockId, (∀ header, header ∈ headers ↔
        nestedModule.InLoop nestedModule.functions[0] 0 header 3) ∧ headers.card = 2) ∧
    (loopBody (nestedModule.cfg nestedModule.functions[0]).predecessors 2 [3]).getD 4 false = true ∧
    ∀ path, nestedModule.Path nestedModule.functions[0] 0 path 4 → 2 ∈ path := by
  have hverify : nestedModule.verify = [] := List.isEmpty_iff.mp (by decide +kernel)
  have hf : nestedModule.functions[0]? = some nestedModule.functions[0] := rfl
  obtain ⟨entry, hentry, hdepths, hbodies⟩ := loopDepths_exact hverify hf rfl
  obtain rfl : 0 = entry := Option.some.inj hentry
  have hreached : ∃ path, nestedModule.Path nestedModule.functions[0] 0 path 3 :=
    ⟨[0, 1, 2, 3], .step (by decide) (by decide) <| .step (by decide) (by decide) <|
      .step (by decide) (by decide) <| .here 3⟩
  obtain ⟨headers, hheaders, hcard⟩ := hdepths 3 hreached
  have hdepth : (nestedModule.loopDepths nestedModule.functions[0])[3]? = some 2 := by
    decide +kernel
  have hcloses : nestedModule.ClosesLoop nestedModule.functions[0] 0 3 2 :=
    (closesLoop_iff rfl (by decide) (by decide)).mpr ⟨hreached, by decide +kernel⟩
  have hfound : (loopBody (nestedModule.cfg nestedModule.functions[0]).predecessors 2 [3]).getD 4
      false = true := by
    decide +kernel
  refine ⟨hverify, ⟨headers, hheaders, Option.some.inj (hcard.symm.trans hdepth)⟩, hfound, ?_⟩
  exact (hbodies 2 [3] (by decide) (fun x hx => List.mem_singleton.mp hx ▸ hcloses) 4 hfound).1

end ContractCompiler.Ssa
