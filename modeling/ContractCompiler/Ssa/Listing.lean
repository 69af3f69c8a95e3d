import ContractCompiler.Ssa.Basic

/-!
# Listings of the intermediate form

`Module.listing` shows functions, their blocks, and one instruction a line.
-/

namespace ContractCompiler.Ssa

/-- The name of a binary operator. -/
def binOpName : BinOp → String
  | .add => "Add"
  | .sub => "Sub"
  | .mul => "Mul"
  | .div => "Div"
  | .rem => "Rem"
  | .shl => "Shl"
  | .shr => "Shr"
  | .and => "And"
  | .or => "Or"
  | .xor => "Xor"
  | .eq => "Eq"
  | .ne => "Ne"
  | .lt => "Lt"
  | .le => "Le"
  | .gt => "Gt"
  | .ge => "Ge"

/-- The name of a unary operator. -/
def unOpName : UnOp → String
  | .neg => "Neg"
  | .not => "Not"
  | .bitNot => "BitNot"

/-- The name of an arithmetic mode. -/
def arithModeName : ArithMode → String
  | .trap => "trap"
  | .wrapping => "wrapping"
  | .saturating => "saturating"
  | .checked => "checked"

/-- The name of a question about the call. -/
def contextName (query : Nat) : String :=
  match ContextQuery.ofNumber? query with
  | some .caller => "caller"
  | some .self => "self"
  | some .blockHeight => "block_height"
  | some .timestamp => "timestamp"
  | some .callValue => "call_value"
  | none => "ctx(?)"

/-- A list of values. -/
def valuesListing (vs : List ValueId) : String :=
  "[" ++ String.intercalate ", " (vs.map fun v => s!"v{v}") ++ "]"

variable (m : Module) (types : TypePool)

/-- What an instruction computes. -/
def InstData.listing : InstData → String
  | .constInt bits => s!"ConstInt {bits.toNat}"
  | .constBool value => "ConstBool " ++ if value then "true" else "false"
  | .constBytes bytes => s!"ConstBytes len={bytes.length}"
  | .unary op mode src => s!"Unary {unOpName op}.{arithModeName mode} v{src}"
  | .binary op mode a b => s!"BinOp {binOpName op}.{arithModeName mode} v{a}, v{b}"
  | .cast mode target src =>
    "Cast" ++ (if mode = .wrapping then ".wrapping" else "") ++
      s!" to={types.typeName target} v{src}"
  | .call callee args =>
    s!"Call f#{callee}"
      ++ (((m.functions[callee]?).map fun f => s!" name={f.name}").getD "")
      ++ " args=" ++ valuesListing args
  | .makeStruct fields => "MakeStruct " ++ valuesListing fields
  | .extract base index => s!"ExtractField v{base} .{index}"
  | .insert base index value => s!"InsertField v{base} .{index} = v{value}"
  | .makeResult ok value =>
    (if ok then "MakeOk" else "MakeErr") ++ ((value.map fun v => s!" v{v}").getD "")
  | .resultIsOk src => s!"ResultIsOk v{src}"
  | .resultValue src => s!"ResultValue v{src}"
  | .resultCode src => s!"ResultCode v{src}"
  | .refNew init => s!"RefNew v{init}"
  | .refLoad ref => s!"RefLoad v{ref}"
  | .refStore ref value => s!"RefStore v{ref} = v{value}"
  | .stateRead ns key _ => s!"StateRead {ns} key=v{key}"
  | .stateWrite ns key value => s!"StateWrite {ns} key=v{key} val=v{value}"
  | .stateHas ns key => s!"StateHas {ns} key=v{key}"
  | .context query => s!"Context {contextName query}"
  | .digest src => s!"Digest v{src}"
  | .emit topic args => s!"Emit {topic} args=" ++ valuesListing args
  | .bytesLength src => s!"BytesLen v{src}"

/-- How a block ends. -/
def Terminator.listing : Terminator → String
  | .jump target args => s!"br bb#{target} " ++ valuesListing args
  | .branch cond t targs e eargs =>
    s!"condbr v{cond} then=bb#{t} " ++ valuesListing targs ++ s!" else=bb#{e} " ++
      valuesListing eargs
  | .ret none => "ret"
  | .ret (some v) => s!"ret v{v}"
  | .revert message => s!"revert \"{message}\""
  | .panic message => s!"panic \"{message}\""
  | .unreachable => "unreachable"

/-- The line of a block's parameter. -/
def paramListing (v : ValueId) : String :=
  match m.values[v]? with
  | some value => s!"      param v{v} ty={types.typeName value.type}\n"
  | none => ""

/-- The result of an instruction. -/
def resultListing (result : Option ValueId) : String :=
  match result.bind fun v => (m.values[v]?).map (v, ·) with
  | some (v, value) => s!" -> v{v} ty={types.typeName value.type}"
  | none => ""

/-- The line of an instruction. -/
def instListing (i : InstId × Inst) : String :=
  s!"      i{i.1} eff={i.2.effect.name}" ++ resultListing m types i.2.result ++ " : "
    ++ i.2.data.listing m types ++ "\n"

/-- The lines of a block. -/
def blockListing (id : BlockId) : String :=
  match m.blocks[id]? with
  | none => ""
  | some b =>
    s!"    bb #{id} params={b.params.length} insts={b.insts.length}\n"
      ++ String.join (b.params.map (paramListing m types))
      ++ String.join ((m.blockInsts b).map (instListing m types))
      ++ "      term: " ++ ((b.term.map (·.listing)).getD "<none>") ++ "\n"

/-- The lines of a function. -/
def functionListing (f : Function) (index : Nat) : String :=
  s!"\n  fn #{index} name={f.name} ret={types.typeName f.ret}"
    ++ (if f.isPublic then " pub" else "") ++ (if f.isPayable then " payable" else "")
    ++ if f.excluded then " <excluded>\n"
      else s!" entry=bb#{f.entry.getD invalidId} blocks={f.blocks.length}\n"
        ++ String.join (f.blocks.map (blockListing m types))

/-- What the passes have done so far. -/
def PassCounts.listing (c : PassCounts) : String :=
  s!"blocks_removed={c.blocksRemoved} condbr_folded={c.branchesFolded} "
    ++ s!"consts_folded={c.constsFolded} calls_inlined={c.callsInlined} "
    ++ s!"insts_removed={c.instsRemoved}"

/-- The text of a module. -/
def Module.listing : String :=
  s!"SSA unit={m.unit}\n"
    ++ s!"  funcs={m.functions.size} blocks={m.blocks.size} insts={m.insts.size} "
    ++ s!"values={m.values.size}\n"
    ++ s!"  opt_stats: {m.counts.listing}\n"
    ++ String.join (m.functions.toList.zipIdx.map fun (f, i) => functionListing m types f i)

end ContractCompiler.Ssa
