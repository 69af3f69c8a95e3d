import ContractCompiler.Proofs.Codegen.Assembly
import Mathlib.Logic.Relation

/-!
# Running stretches of code

What a stretch of a piece does when it is run. Jumps inside a piece go forward, so a stretch is
walked from its start to its end: where a jump is taken, elements are skipped up to its mark.

- `Vm.Runs`, `Vm.Stops`: runs of the machine, and runs that are stopped;
- `Vm.Stops.exists_run`: with enough steps, the machine ends as a run does that is stopped;
- `Work`: what a stretch changes: the words that it has put on the stack, the slots and memory;
- `walk`: walking through a stretch;
- `Site`: a piece of the code of a running activation;
- `Site.ends_of_walk`: the machine does what walking says;
- `Site.ends_of_walk_piece`: the same for a whole piece.
-/

namespace ContractCompiler

namespace Vm

variable [Hashing]

/-- A run from one configuration to another. -/
def Runs (m : Module) (limits : Limits) : Config → Config → Prop :=
  Relation.ReflTransGen fun c c' => step m limits c = .next c'

/-- A run that is stopped. -/
def Stops (m : Module) (limits : Limits) (c : Config) (h : Halt) : Prop :=
  ∃ c₁ c₂, Runs m limits c c₁ ∧ step m limits c₁ = .halted h c₂

variable {m : Module} {limits : Limits} {c c' : Config} {h : Halt}

theorem Runs.stops (hruns : Runs m limits c c') (hstops : Stops m limits c' h) :
    Stops m limits c h := by
  obtain ⟨c₁, c₂, hruns', hstep⟩ := hstops
  exact ⟨c₁, c₂, hruns.trans hruns', hstep⟩

/-- A run with enough steps left goes through what a run goes through. -/
theorem Runs.exists_run (hruns : Runs m limits c c') :
    ∃ n, ∀ k, run m limits (n + k) c = run m limits k c' := by
  induction hruns with
  | refl => exact ⟨0, fun k => by rw [Nat.zero_add]⟩
  | tail _ hstep ih =>
    obtain ⟨n, hn⟩ := ih
    refine ⟨n + 1, fun k => ?_⟩
    rw [Nat.add_assoc, hn, Nat.add_comm 1 k, run, hstep]

/-- A run that is stopped ends so whenever it has enough steps. -/
theorem Stops.exists_run (hstops : Stops m limits c h) :
    ∃ n, ∀ k, ∃ status ledger, run m limits (n + k) c = (h.toResult status, ledger) := by
  obtain ⟨c₁, c₂, hruns, hstep⟩ := hstops
  obtain ⟨n, hn⟩ := hruns.exists_run
  refine ⟨n + 1, fun k => ⟨c₂.hostStatus, c₂.ledger, ?_⟩⟩
  rw [Nat.add_assoc, hn, Nat.add_comm 1 k, run, hstep]

/-- A call of the host whose answer stops the program. -/
theorem callHost_of_stop {index : Nat} {im : Import} {ref : HostRef} {memory : Memory}
    {ledger : Ledger} (him : m.imports[index]? = some im) (href : im.hostRef? = some ref)
    (hheight : ¬c.stack.height < im.numArgs)
    (hanswer : answer ref.function.op (c.stack.top im.numArgs) c.memory c.ledger =
      (.stop h, memory, ledger)) :
    callHost m c index = .halted h { c with stack := c.stack.drop im.numArgs, memory, ledger } := by
  unfold callHost
  rw [him]
  dsimp only
  rw [href]
  dsimp only
  rw [if_neg hheight, hanswer]

end Vm

namespace Codegen

open Vm (Config)

/-! ## Walking -/

/-- What a stretch of code changes: the words that it has put on the stack, the top first, the slots
of the activation and memory. -/
structure Work where
  words : List UInt64
  locals : Array UInt64
  memory : Vm.Memory

/-- How many words a stretch may have put on the stack when an instruction starts. -/
def depth : Nat := 3

/-- What an instruction does that neither jumps nor calls. -/
def Work.plain (i : Vm.Instr) (s : Work) : Option (Except TrapCode Work) :=
  match i.op, s.words with
  | .nop, _ => some (.ok s)
  | .const, ws => some (.ok { s with words := i.imm :: ws })
  | .localGet, ws => s.locals[i.imm.toNat]?.map fun w => .ok { s with words := w :: ws }
  | .localSet, w :: ws =>
    if i.imm.toNat < s.locals.size then
      some (.ok { s with words := ws, locals := s.locals.setIfInBounds i.imm.toNat w })
    else none
  | .localTee, w :: ws =>
    if i.imm.toNat < s.locals.size then
      some (.ok { s with words := w :: ws, locals := s.locals.setIfInBounds i.imm.toNat w })
    else none
  | .drop, _ :: ws => some (.ok { s with words := ws })
  | .eqz, w :: ws => some (.ok { s with words := Vm.flagWord (w == 0) :: ws })
  | .sext, w :: ws => some (.ok { s with words := Vm.signExtend i.imm w :: ws })
  | .zext, w :: ws => some (.ok { s with words := Vm.zeroExtend i.imm w :: ws })
  | .load, addr :: ws =>
    (s.memory.read? addr.toNat 8).map fun bs => .ok { s with words := Bytes.wordOfBytes bs :: ws }
  | .store, w :: addr :: ws =>
    if s.memory.inBounds addr.toNat 8 then
      some (.ok { s with words := ws, memory := s.memory.set addr.toNat (Bytes.littleEndian w) })
    else none
  | o, b :: a :: ws => o.binary?.map fun f => (f a b).map fun w => { s with words := w :: ws }
  | _, _ => none

/-- Whether a jump is taken, and the words that are left. -/
def taken? (o : Vm.Op) : List UInt64 → Option (Bool × List UInt64)
  | [] => if o = .jmp then some (true, []) else none
  | w :: ws =>
    match o with
    | .jmp => some (true, w :: ws)
    | .jmpIf => some (w != 0, ws)
    | .jmpIfNot => some (w == 0, ws)
    | _ => none

/-- Where walking ends. -/
inductive Ending where
  /-- At the end of the stretch. -/
  | past (s : Work)
  /-- At a label. -/
  | goes (l : Label) (s : Work)
  /-- At a trap. -/
  | trap (code : TrapCode)

/-- Walks through a stretch of code, given the marks before it. Where a jump to a mark was taken,
elements are skipped up to the mark. -/
def walk (link : Linkage) : List Nat → List Item → Option Nat → Work → Option Ending
  | _, [], none, s => some (.past s)
  | _, [], some _, _ => none
  | seen, .mark k :: rest, skip, s => walk link (k :: seen) rest (if skip = some k then none
      else skip) s
  | seen, _ :: rest, some n, s => walk link seen rest (some n) s
  | seen, .instr i :: rest, none, s =>
    if s.words.length ≤ depth then
      match s.plain i with
      | some (.ok s') => walk link seen rest none s'
      | some (.error code) => some (.trap code)
      | none => none
    else none
  | seen, .address bytes :: rest, none, s =>
    if s.words.length ≤ depth then walk link seen rest none
      { s with words := link.address bytes :: s.words }
    else none
  | seen, .jump o t :: rest, none, s =>
    if s.words.length ≤ depth then
      match taken? o s.words with
      | none => none
      | some (false, ws) => walk link seen rest none { s with words := ws }
      | some (true, ws) =>
        match t with
        | .label l => some (.goes l { s with words := ws })
        | .mark n => if n ∈ seen then none else walk link seen rest (some n) { s with words := ws }
    else none
  | seen, .reserve .. :: rest, none, s => walk link seen rest none s
  | seen, .needs _ :: rest, none, s => walk link seen rest none s
  | _, .fault _ :: _, none, _ => none
  | _, .call _ :: _, none, _ => none
  | _, .callHost _ :: _, none, _ => none

/-! ## Sites -/

/-- A piece of the code of a running activation, with what it finds and does not change. -/
structure Site where
  link : Linkage
  before : List Piece
  piece : Piece
  after : List Piece
  function : Vm.Function
  base : Nat
  callers : List Vm.Frame
  /-- The words on the stack that the piece does not look at. -/
  below : List UInt64
  ledger : Ledger
  hostStatus : Option HostStatus

namespace Site

/-- The pieces of the function. -/
def pieces (x : Site) : List Piece := x.before ++ x.piece :: x.after

/-- The configuration at a position. -/
def config (x : Site) (pc : Nat) (s : Work) : Config where
  frame := { function := x.function, pc, locals := s.locals, base := x.base }
  callers := x.callers
  stack := { words := s.words ++ x.below, height := (s.words ++ x.below).length }
  memory := s.memory
  ledger := x.ledger
  hostStatus := x.hostStatus

/-- The position after elements at the start of the piece. -/
def position (x : Site) (done : List Item) : Nat := codeSize x.before + instrCount done

/-- What a configuration goes on to after an instruction. -/
def progress (x : Site) (pc : Nat) (s : Work) : Except TrapCode Work → Vm.Progress
  | .ok s' => .next (x.config pc s')
  | .error code => (x.config pc s).trap code

/-- The position of a label. -/
def target (x : Site) (l : Label) : Nat := labelPosition (placed 0 x.pieces) l

/-- The function is made of the pieces, and the stack has room for what they put there. -/
structure Running (x : Site) (limits : Vm.Limits) : Prop where
  code : x.function.code = (assemble x.link x.pieces).toArray
  small : x.function.code.size < 2 ^ 64
  base : x.base ≤ x.below.length
  room : x.below.length + depth ≤ limits.maxStack

section

variable [Hashing] {x : Site} {m : Vm.Module} {limits : Vm.Limits} {s s' : Work}
  {i : Vm.Instr} {pc : Nat}
  {code : TrapCode} {done todo rest : List Item} {seen : List Nat} {skip : Option Nat} {e : Ending}

omit [Hashing] in
theorem Running.has (hx : x.Running limits) {n : Nat} (hn : n ≤ s.words.length) :
    (x.config pc s).has n = true := by
  have hbase := hx.base
  refine decide_eq_true ?_
  show x.base + n ≤ (s.words ++ x.below).length
  rw [List.length_append]
  omega

omit [Hashing] in
theorem unary_config (hx : x.Running limits) (f : UInt64 → UInt64) {w : UInt64} {ws : List UInt64}
    (hwords : s.words = w :: ws) :
    Vm.unary (x.config pc s) f = .next (x.config pc { s with words := f w :: ws }) := by
  obtain ⟨words, locals, memory⟩ := s
  obtain rfl : words = w :: ws := hwords
  unfold Vm.unary
  rw [hx.has (n := 1) (by simp)]
  rfl

theorem execute_of_binary {c : Config} {o : Vm.Op} {imm : UInt64}
    {f : UInt64 → UInt64 → Except TrapCode UInt64} (ho : o.binary? = some f) :
    Vm.execute m limits c { op := o, imm } =
      match c.has 2, c.stack.words with
      | true, b :: a :: _ =>
        match f a b with
        | .ok w => .next (c.withStack ((c.stack.drop 2).push w))
        | .error code => c.trap code
      | _, _ => c.fail "stack underflow" := by
  cases o <;> cases ho <;> rfl

/-- An operation on two words leaves its result, or stops the execution. -/
theorem execute_binary (hx : x.Running limits) {o : Vm.Op} {imm : UInt64}
    {f : UInt64 → UInt64 → Except TrapCode UInt64} (ho : o.binary? = some f) {a b : UInt64}
    {ws : List UInt64} (hwords : s.words = b :: a :: ws) :
    Vm.execute m limits (x.config pc s) { op := o, imm } =
      x.progress pc s ((f a b).map fun w => { s with words := w :: ws }) := by
  obtain ⟨words, locals, memory⟩ := s
  obtain rfl : words = b :: a :: ws := hwords
  have hstack : (x.config pc ⟨b :: a :: ws, locals, memory⟩).stack.words =
    b :: a :: (ws ++ x.below) := rfl
  rw [execute_of_binary ho, hx.has (n := 2) (by simp), hstack]
  dsimp only
  cases f a b <;> rfl

omit [Hashing] in
theorem plain_of_binary {o : Vm.Op} {imm : UInt64} {f : UInt64 → UInt64 → Except TrapCode UInt64}
    (ho : o.binary? = some f) {a b : UInt64} {ws : List UInt64} (hwords : s.words = b :: a :: ws) :
    s.plain { op := o, imm } = some ((f a b).map fun w => { s with words := w :: ws }) := by
  obtain ⟨words, locals, memory⟩ := s
  obtain rfl : words = b :: a :: ws := hwords
  cases o <;> cases ho <;> rfl

/-- The machine does what a stretch says of an instruction. -/
theorem execute_plain (hx : x.Running limits) {out : Except TrapCode Work}
    (h : s.plain i = some out) :
    Vm.execute m limits (x.config pc s) i = x.progress pc s out := by
  obtain ⟨o, imm⟩ := i
  obtain ⟨words, locals, memory⟩ := s
  have hhas {n : Nat} (hn : n ≤ words.length) : (x.config pc ⟨words, locals, memory⟩).has n =
    true := hx.has hn
  -- what takes two words and leaves one is the same for all such instructions
  rcases hbinary : o.binary? with _ | f
  case some =>
    match words with
    | [] => cases o <;> cases hbinary <;> cases h
    | [_] => cases o <;> cases hbinary <;> cases h
    | b :: a :: ws =>
      rw [plain_of_binary hbinary rfl] at h
      obtain rfl := Option.some.inj h
      exact execute_binary hx hbinary rfl
  cases o with
  | nop =>
    obtain rfl := Option.some.inj h
    rfl
  | const =>
    obtain rfl := Option.some.inj h
    rfl
  | localGet =>
    obtain ⟨w, hw, rfl⟩ := Option.map_eq_some_iff.mp h
    have hw : (x.config pc ⟨words, locals, memory⟩).frame.locals[imm.toNat]? = some w := hw
    unfold Vm.execute
    dsimp only
    rw [hw]
    rfl
  | localSet =>
    cases words with
    | nil => cases h
    | cons w ws =>
      obtain ⟨hlt, hout⟩ := Option.ite_none_right_eq_some.mp h
      obtain rfl := Option.some.inj hout
      have hlt : decide (imm.toNat < (x.config pc ⟨w :: ws, locals, memory⟩).frame.locals.size) =
          true :=
        decide_eq_true hlt
      unfold Vm.execute
      dsimp only
      rw [hlt, hhas (n := 1) (by simp)]
      rfl
  | localTee =>
    cases words with
    | nil => cases h
    | cons w ws =>
      obtain ⟨hlt, hout⟩ := Option.ite_none_right_eq_some.mp h
      obtain rfl := Option.some.inj hout
      have hlt : decide (imm.toNat < (x.config pc ⟨w :: ws, locals, memory⟩).frame.locals.size) =
          true :=
        decide_eq_true hlt
      unfold Vm.execute
      dsimp only
      rw [hlt, hhas (n := 1) (by simp)]
      rfl
  | drop =>
    cases words with
    | nil => cases h
    | cons w ws =>
      obtain rfl := Option.some.inj h
      unfold Vm.execute
      dsimp only
      rw [if_pos (hhas (n := 1) (by simp))]
      rfl
  | eqz =>
    cases words with
    | nil => cases h
    | cons w ws =>
      obtain rfl := Option.some.inj h
      exact unary_config hx _ rfl
  | sext =>
    cases words with
    | nil => cases h
    | cons w ws =>
      obtain rfl := Option.some.inj h
      exact unary_config hx _ rfl
  | zext =>
    cases words with
    | nil => cases h
    | cons w ws =>
      obtain rfl := Option.some.inj h
      exact unary_config hx _ rfl
  | load =>
    cases words with
    | nil => cases h
    | cons w ws =>
      obtain ⟨bs, hbs, rfl⟩ := Option.map_eq_some_iff.mp h
      have hbs : (x.config pc ⟨w :: ws, locals, memory⟩).memory.read? w.toNat 8 = some bs := hbs
      have hwords : (x.config pc ⟨w :: ws, locals, memory⟩).stack.words =
        w :: (ws ++ x.below) := rfl
      unfold Vm.execute
      dsimp only
      rw [hhas (n := 1) (by simp), hwords]
      dsimp only
      rw [hbs]
      rfl
  | store =>
    match words with
    | [] => cases h
    | [_] => cases h
    | w :: addr :: ws =>
      obtain ⟨hin, hout⟩ := Option.ite_none_right_eq_some.mp h
      obtain rfl := Option.some.inj hout
      have hin : memory.inBounds addr.toNat 8 = true := hin
      unfold Vm.execute
      dsimp only
      rw [hhas (n := 2) (by simp)]
      show (if memory.inBounds addr.toNat 8 = true then _ else _) = _
      rw [if_pos hin]
      rfl
  | memCopy | jmp | jmpIf | jmpIfNot | call | callHost | ret | trap =>
    match words with
    | [] => cases h
    | [_] => cases h
    | _ :: _ :: _ => cases h
  | _ => cases hbinary

/-- The machine jumps where a stretch says so. -/
theorem execute_jump (hx : x.Running limits) {o : Vm.Op} {imm : UInt64} {taken : Bool}
    {ws : List UInt64} (h : taken? o s.words = some (taken, ws)) :
    Vm.execute m limits (x.config pc s) { op := o, imm } =
      .next (x.config (if taken then imm.toNat else pc) { s with words := ws }) := by
  obtain ⟨words, locals, memory⟩ := s
  cases words with
  | nil =>
    obtain ⟨rfl, heq⟩ := Option.ite_none_right_eq_some.mp h
    cases heq
    rfl
  | cons w words =>
    have hone : (x.config pc ⟨w :: words, locals, memory⟩).has 1 = true := hx.has (by simp)
    cases o with
    | jmp =>
      cases h
      rfl
    | jmpIf =>
      cases h
      unfold Vm.execute
      dsimp only
      rw [hone]
      cases hw : w != 0
      · show Vm.Progress.next (if (w != 0) = true then _ else _) = _
        rw [hw]
        rfl
      · show Vm.Progress.next (if (w != 0) = true then _ else _) = _
        rw [hw]
        rfl
    | jmpIfNot =>
      cases h
      unfold Vm.execute
      dsimp only
      rw [hone]
      cases hw : w == 0
      · show Vm.Progress.next (if (w == 0) = true then _ else _) = _
        rw [hw]
        rfl
      · show Vm.Progress.next (if (w == 0) = true then _ else _) = _
        rw [hw]
        rfl
    | _ => cases h

omit [Hashing] in
theorem advance_config : Vm.advance (x.config pc s) = x.config (pc + 1) s := rfl

/-- A step executes the instruction that is encoded at the position. -/
theorem Running.step_config (hx : x.Running limits) (hroom : s.words.length ≤ depth) {it : Item}
    (hitems : x.piece.items = done ++ it :: todo)
    (hit : it.encode x.link (x.piece.position x.target (codeSize x.before)) = some i) :
    Vm.step m limits (x.config (x.position done) s) =
      Vm.execute m limits (x.config (x.position done + 1) s) i := by
  have hcode : x.function.code[x.position done]? = some i := by
    have hinstr : it.op?.isSome = true := by
      rw [← isSome_encode x.link (x.piece.position x.target (codeSize x.before)), hit]
      rfl
    rw [hx.code, List.getElem?_toArray]
    exact (getElem?_assemble hitems hinstr).trans hit
  have hheight : ¬limits.maxStack < (x.config (x.position done) s).stack.height := by
    have hroom' := hx.room
    show ¬limits.maxStack < (s.words ++ x.below).length
    rw [List.length_append]
    omega
  have hcode : (x.config (x.position done)
      s).frame.function.code[(x.config (x.position done) s).frame.pc]? = some i :=
    hcode
  unfold Vm.step
  rw [hcode]
  dsimp only
  rw [if_neg hheight, advance_config]

/-! ## What walking says -/

omit [Hashing] in
theorem position_concat_some (it : Item) (hit : it.op?.isSome = true) :
    x.position (done ++ [it]) = x.position done + 1 := by
  rw [position, instrCount_append, instrCount_cons_some hit]
  rfl

omit [Hashing] in
theorem position_concat_none (it : Item) (hit : it.op?.isSome = false) :
    x.position (done ++ [it]) = x.position done := by
  rw [position, instrCount_append, instrCount_cons_none hit]
  rfl

/-- Where control is: at the next element, or at the mark that elements are skipped to. -/
def at? (x : Site) (done : List Item) : Option Nat → Nat
  | none => x.position done
  | some n => codeSize x.before + markOffset n x.piece.items

omit [Hashing] in
/-- The first place of a mark. -/
theorem at?_mark {n : Nat} (hitems : x.piece.items = done ++ .mark n :: todo)
    (hn : n ∉ marks done) :
    x.at? done (some n) = x.position done := by
  have hne : ∀ it ∈ done, decide (it ≠ .mark n) = true := by
    intro it hit
    refine decide_eq_true ?_
    rintro rfl
    exact hn (List.mem_filterMap.mpr ⟨_, hit, rfl⟩)
  rw [at?, markOffset, hitems, List.takeWhile_append_of_pos hne,
    List.takeWhile_cons_of_neg (by simp), List.append_nil, position]

omit [Hashing] in
/-- Targets are within the code. -/
theorem Running.lt_of_target (hx : x.Running limits) (t : Target) :
    x.piece.position x.target (codeSize x.before) t < 2 ^ 64 := by
  have hsize : x.function.code.size = codeSize x.pieces := by
    rw [hx.code, List.size_toArray, length_assemble]
  have hsmall := hx.small
  have hpieces : codeSize x.pieces = codeSize x.before +
      (instrCount x.piece.items + codeSize x.after) := by
    rw [pieces, codeSize_append, codeSize_cons]
  cases t with
  | mark n =>
    have hle : markOffset n x.piece.items ≤ instrCount x.piece.items :=
      List.Sublist.countP_le (List.takeWhile_sublist _)
    show codeSize x.before + markOffset n x.piece.items < 2 ^ 64
    omega
  | label l =>
    show labelPosition (placed 0 x.pieces) l < 2 ^ 64
    cases hfind : (placed 0 x.pieces).reverse.find? fun y => y.2.label == some l with
    | none =>
      rw [labelPosition, hfind]
      exact Nat.two_pow_pos 64
    | some y =>
      obtain ⟨before, after, hsplit, hpos⟩ :=
        exists_split_of_mem_placed (List.mem_reverse.mp (List.mem_of_find?_eq_some hfind))
      rw [labelPosition, hfind]
      show y.1 < 2 ^ 64
      rw [hsplit, codeSize_append] at hsize
      omega

/-- The machine comes to where walking ends. -/
def Ends (x : Site) (m : Vm.Module) (limits : Vm.Limits) (c : Config) (done : List Item) :
    Ending → Prop
  | .past s => Vm.Runs m limits c (x.config (x.position done) s)
  | .goes l s => Vm.Runs m limits c (x.config (x.target l) s)
  | .trap code => Vm.Stops m limits c (.trappedBy code)

theorem Ends.after {c c' : Config} (hends : x.Ends m limits c' done e)
    (hstep : Vm.step m limits c = .next c') :
    x.Ends m limits c done e := by
  have hruns : Vm.Runs m limits c c' := .single hstep
  cases e with
  | past s => exact hruns.trans hends
  | goes l s => exact hruns.trans hends
  | trap code => exact hruns.stops hends

omit [Hashing] in
theorem marks_concat_subset {it : Item} (hseen : marks done ⊆ seen) (hit : it.mark? = none) :
    marks (done ++ [it]) ⊆ seen := by
  rw [marks_append, marks_cons, hit]
  simpa using hseen

/-- The machine does what walking through a stretch says. -/
theorem ends_of_walk (hx : x.Running limits) (hitems : x.piece.items = done ++ (todo ++ rest))
    (hseen : marks done ⊆ seen) (hskip : ∀ n, skip = some n → n ∉ seen)
    (hwalk : walk x.link seen todo skip s = some e) :
    x.Ends m limits (x.config (x.at? done skip) s) (done ++ todo) e := by
  -- by induction on what is left; `skip` is the mark that control is on its way to, if it jumped
  induction todo generalizing done seen skip s with
  | nil =>
    cases skip with
    | none =>
      obtain rfl := Option.some.inj hwalk
      rw [List.append_nil]
      exact .refl
    | some n => cases hwalk
  | cons it todo ih =>
    have hitems' : x.piece.items = (done ++ [it]) ++ (todo ++ rest) := by simpa using hitems
    have hitems : x.piece.items = done ++ it :: (todo ++ rest) := hitems
    rw [show done ++ it :: todo = (done ++ [it]) ++ todo by simp]
    by_cases hmark : ∃ k, it = .mark k
    · -- control is at a mark, or passes it on the way to another
      obtain ⟨k, rfl⟩ := hmark
      have hsame : x.at? done skip = x.at? (done ++ [.mark k])
          (if skip = some k then none else skip) := by
        split
        · rename_i hk
          subst hk
          exact (at?_mark hitems fun hmem => hskip k rfl (hseen hmem)).trans
            (position_concat_none _ rfl).symm
        · cases skip with
          | none => exact (position_concat_none _ rfl).symm
          | some n => rfl
      rw [hsame]
      refine ih hitems' ?_ ?_ hwalk
      · rw [marks_append]
        exact List.append_subset.mpr ⟨fun n hn => List.mem_cons_of_mem k (hseen hn), fun n hn => by
          simp [Item.mark?] at hn; exact hn ▸ List.mem_cons_self⟩
      · intro n hn
        split at hn
        · cases hn
        · rename_i hne
          rintro hmem
          rcases List.mem_cons.mp hmem with rfl | hmem
          · exact hne hn
          · exact hskip n hn hmem
    · -- anything else is passed over on the way to a mark, and executed otherwise
      have hnomark : it.mark? = none := by
        cases it with
        | mark k => exact absurd ⟨k, rfl⟩ hmark
        | _ => rfl
      have hseen' := marks_concat_subset hseen hnomark
      cases skip with
      | some n =>
        show x.Ends m limits (x.config (x.at? (done ++ [it]) (some n)) s) _ e
        refine ih hitems' hseen' hskip ?_
        cases it with
        | mark k => exact absurd ⟨k, rfl⟩ hmark
        | _ => exact hwalk
      | none =>
        cases it with
        | mark k => exact absurd ⟨k, rfl⟩ hmark
        | instr i =>
          obtain ⟨hroom, hwalk⟩ := Option.ite_none_right_eq_some.mp hwalk
          have hstep := hx.step_config (m := m) hroom hitems rfl
          split at hwalk
          · rename_i s' hplain
            rw [execute_plain hx hplain, ← position_concat_some (.instr i) rfl] at hstep
            exact (ih hitems' hseen' hskip hwalk).after hstep
          · rename_i code hplain
            obtain rfl := Option.some.inj hwalk
            rw [execute_plain hx hplain] at hstep
            exact ⟨_, _, .refl, hstep⟩
          · cases hwalk
        | address bytes =>
          obtain ⟨hroom, hwalk⟩ := Option.ite_none_right_eq_some.mp hwalk
          have hstep := hx.step_config (m := m) hroom hitems rfl
          rw [execute_plain hx rfl, ← position_concat_some (.address bytes) rfl] at hstep
          exact (ih hitems' hseen' hskip hwalk).after hstep
        | jump o t =>
          obtain ⟨hroom, hwalk⟩ := Option.ite_none_right_eq_some.mp hwalk
          have hstep := hx.step_config (m := m) hroom hitems rfl
          split at hwalk
          · cases hwalk
          · rename_i ws htaken
            rw [execute_jump hx htaken, ← position_concat_some (.jump o t) rfl] at hstep
            exact (ih hitems' hseen' hskip hwalk).after hstep
          · rename_i ws htaken
            rw [execute_jump hx htaken, UInt64.toNat_ofNat_of_lt' (hx.lt_of_target t)] at hstep
            cases t with
            | label l =>
              obtain rfl := Option.some.inj hwalk
              exact .single hstep
            | mark n =>
              obtain ⟨hnew, hwalk⟩ := Option.ite_none_left_eq_some.mp hwalk
              have hskip' : ∀ k, some n = some k → k ∉ seen := by
                rintro _ ⟨⟩
                exact hnew
              exact (ih hitems' hseen' hskip' hwalk).after hstep
        | reserve use bytes span =>
          rw [at?, ← position_concat_none (.reserve use bytes span) rfl]
          exact ih hitems' hseen' hskip hwalk
        | needs f =>
          rw [at?, ← position_concat_none (.needs f) rfl]
          exact ih hitems' hseen' hskip hwalk
        | call callee => cases hwalk
        | callHost op => cases hwalk
        | fault f => cases hwalk

/-- The machine does what walking through a whole piece says. -/
theorem ends_of_walk_piece (hx : x.Running limits)
    (hwalk : walk x.link [] x.piece.items none s = some e) :
    x.Ends m limits (x.config (codeSize x.before) s) x.piece.items e := by
  have hends : x.Ends m limits (x.config (x.at? [] none) s) ([] ++ x.piece.items) e :=
    x.ends_of_walk hx (List.append_nil _).symm (List.nil_subset _) (fun _ h => by cases h) hwalk
  exact hends

end

end Site

end Codegen

end ContractCompiler
