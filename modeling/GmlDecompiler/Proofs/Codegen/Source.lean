import GmlDecompiler.Build

/-!
# Source programs and their code

A source program is made of terms and commands. Each has a tree, which is what decompilation
should find, and a code, which is what a compiler makes of it: instructions in postorder, and
nodes of structured code where control flow needs them. Where a compiler may choose (the order
of a store, a marked owner, the opcode of a push), the source says what was chosen.
-/

namespace GmlDecompiler

/-- A piece of generated code: one instruction, or one node of structured code. -/
inductive Piece where
  | op (instruction : Instruction)
  | node (node : Node)

namespace Piece

/-- An instruction in front of a region. It joins the block that the region starts with. -/
def putFront (i : Instruction) : List Node → List Node
  | .block code :: nodes => .block ⟨i.address, i :: code.code⟩ :: nodes
  | nodes => .block ⟨i.address, [i]⟩ :: nodes

/-- The region that pieces make up: every run of instructions is one block. -/
def pack : List Piece → List Node
  | [] => []
  | .op i :: pieces => putFront i (pack pieces)
  | .node n :: pieces => n :: pack pieces

end Piece

/-- A literal as a shape. -/
def Literal.shape : Literal → Shape
  | .int16 value => .int16 value
  | .int32 value => .int32 value
  | .int64 value => .int64 value
  | .double value => .double value
  | .boolean value => .boolean value
  | .string value => .string value

/-- The instruction that pushes a literal. -/
def Literal.push : Literal → Instruction
  | .int16 value => .pushImmediate value
  | .int32 value => .pushInt32 value
  | .int64 value => ((Instruction.plain .push).withTypes .int64 .int64).withLiteral (.int64 value)
  | .double value =>
    ((Instruction.plain .push).withTypes .double .double).withLiteral (.double value)
  | .boolean value =>
    ((Instruction.plain .push).withTypes .boolean .boolean).withLiteral (.boolean value)
  | .string value => .pushString value

/-- The opcode pushes a literal or a variable. -/
def Opcode.isPush : Opcode → Bool
  | .push | .pushLocal | .pushGlobal | .pushBuiltin => true
  | _ => false

/-- The opcode is an operator with one operand. -/
def Opcode.isUnary : Opcode → Bool
  | .negate | .not => true
  | _ => false

/-- The opcode is an operator with two operands. -/
def Opcode.isBinary : Opcode → Bool
  | .multiply | .divide | .remainder | .modulo | .add | .subtract | .and | .or | .xor
  | .shiftLeft | .shiftRight | .compare => true
  | _ => false

/-- The name of a local variable; none for any other variable. -/
def VarRef.localName (v : VarRef) : List String :=
  if v.owner = .locals then [v.name] else []

mutual

/-- An expression of the source. -/
inductive Term where
  /-- A literal. -/
  | literal (value : Literal)
  /-- A function by its name. -/
  | function (name : String)
  /-- The value of a variable, pushed by an opcode. -/
  | read (opcode : Opcode) (place : Place)
  /-- An operator with one operand. -/
  | unary (operator : Instruction) (operand : Term)
  /-- An operator with two operands. -/
  | binary (operator : Instruction) (left right : Term)
  /-- A call of a function by its name. -/
  | call (function : String) (arguments : List Term)
  /-- A call of a function value. -/
  | callValue (callee self : Term) (arguments : List Term)
  /-- An instance made by a constructor. -/
  | construct (callee : Term) (arguments : List Term)
  /-- Conditions joined by `&&` or `||`. -/
  | chain (logic : Logic) (conditions : List Term)

/-- A variable of the source, as it is addressed. A computed owner is marked if a marker is
pushed after it, which tells that the owner is one level further down. -/
inductive Place where
  /-- A variable of an instance that the instruction names. -/
  | plain (target : VarRef) (owner : Instance)
  /-- A variable of a computed owner. -/
  | member (target : VarRef) (owner : Term) (marked : Bool)
  /-- An element of an array of a computed owner. -/
  | element (reference : Reference) (target : VarRef) (owner : Term) (marked : Bool)
      (index : Term)
  /-- An element of a two-dimensional array, addressed by one index `row * 32000 + column`. -/
  | cell (target : VarRef) (owner : Term) (marked : Bool) (row column : Term)
      (product sum : Instruction)

end

namespace Place

/-- The variable. -/
def target : Place → VarRef
  | .plain target _ | .member target _ _ | .element _ target _ _ _ | .cell target _ _ _ _ _ _ =>
    target

/-- How the instruction finds the variable. -/
def reference : Place → Reference
  | .plain _ _ => .normal
  | .member _ _ _ => .stackTop
  | .element reference _ _ _ _ => reference
  | .cell _ _ _ _ _ _ _ => .array

/-- The instance that the instruction names. -/
def namedInstance : Place → Instance
  | .plain _ owner => owner
  | place => place.target.owner

/-- The instruction that pushes the variable. -/
def readBy (opcode : Opcode) (p : Place) : Instruction :=
  ((Instruction.plain opcode).withTarget p.target p.reference).withOwner p.namedInstance

/-- The instruction that stores to the variable. -/
def storeAs (type1 type2 : SlotType) (p : Place) : Instruction :=
  (((Instruction.plain .pop).withTypes type1 type2).withTarget p.target p.reference).withOwner
    p.namedInstance

/-- The marker after an owner, if there is one. -/
def marker (marked : Bool) : List Piece :=
  if marked then [.op (.pushImmediate Instance.stackTop.raw)] else []

end Place

mutual

/-- The tree of a term. -/
def Term.tree : Term → Expr
  | .literal value => .ofShape value.shape
  | .function name => .ofShape (.function name)
  | .read opcode place => .ofShape (.access (place.access (opcode == .push)))
  | .unary operator operand => .ofShape (.unary (operator.atAddress 0) operand.tree)
  | .binary operator left right =>
    .ofShape (.binary (operator.atAddress 0) left.tree right.tree)
  | .call function arguments => .ofShape (.call function (termTrees arguments))
  | .callValue callee self arguments =>
    .ofShape (.callValue callee.tree self.tree (termTrees arguments))
  | .construct callee arguments => .ofShape (.construct callee.tree (termTrees arguments))
  | .chain logic conditions => .ofShape (.chain logic (termTrees conditions))

/-- The access of a variable. -/
def Place.access (regularPush : Bool) : Place → Access
  | .plain target owner => ⟨target, .normal, .ofShape (.keyword owner), none, regularPush, none⟩
  | .member target owner _ => ⟨target, .stackTop, owner.tree, none, regularPush, none⟩
  | .element reference target owner _ index =>
    ⟨target, reference, owner.tree, some [index.tree], regularPush, none⟩
  | .cell target owner _ row column _ _ =>
    ⟨target, .array, owner.tree, some [row.tree, column.tree], regularPush, none⟩

/-- The trees of terms. -/
def termTrees : List Term → List Expr
  | [] => []
  | t :: ts => t.tree :: termTrees ts

end

mutual

/-- The code of a term. It leaves the value of the term on the stack. -/
def Term.code : Term → List Piece
  | .literal value => [.op value.push]
  | .function name =>
    [.op (((Instruction.plain .push).withTypes .int32 .int32).withFunction name 0)]
  | .read opcode place => place.code ++ [.op (place.readBy opcode)]
  | .unary operator operand => operand.code ++ [.op operator]
  | .binary operator left right => left.code ++ right.code ++ [.op operator]
  | .call function arguments =>
    argumentCode arguments ++ [.op (.call function arguments.length.toUInt16)]
  | .callValue callee self arguments =>
    argumentCode arguments ++ self.code ++ callee.code
      ++ [.op { Instruction.plain .callValue with argCount := arguments.length.toUInt16 }]
  | .construct callee arguments =>
    argumentCode arguments ++ callee.code
      ++ [.op (.call Reserved.newObject (arguments.length + 1).toUInt16)]
  | .chain logic conditions => [.node (.chain logic (conditionCode conditions))]

/-- The code of the operands of an access: the owner below, the index on top. -/
def Place.code : Place → List Piece
  | .plain _ _ => []
  | .member _ owner marked => owner.code ++ Place.marker marked
  | .element _ _ owner marked index => owner.code ++ Place.marker marked ++ index.code
  | .cell _ owner marked row column product sum =>
    owner.code ++ Place.marker marked
      ++ (row.code ++ [.op (.pushInt32 Reserved.rowStride)] ++ [.op product] ++ column.code
        ++ [.op sum])

/-- The code of arguments, the last one first, so that the first one is on top. -/
def argumentCode : List Term → List Piece
  | [] => []
  | t :: ts => argumentCode ts ++ t.code

/-- The regions of conditions. -/
def conditionCode : List Term → List (List Node)
  | [] => []
  | t :: ts => Piece.pack t.code :: conditionCode ts

end

mutual

/-- The local variables that the code of a term refers to, in the order of the code. -/
def Term.localNames : Term → List String
  | .literal _ | .function _ => []
  | .read _ place => place.localNames ++ place.target.localName
  | .unary _ operand => operand.localNames
  | .binary _ left right => left.localNames ++ right.localNames
  | .call _ arguments => argumentNames arguments
  | .callValue callee self arguments =>
    argumentNames arguments ++ self.localNames ++ callee.localNames
  | .construct callee arguments => argumentNames arguments ++ callee.localNames
  | .chain _ conditions => conditionNames conditions

/-- The local variables in the operands of an access. -/
def Place.localNames : Place → List String
  | .plain _ _ => []
  | .member _ owner _ => owner.localNames
  | .element _ _ owner _ index => owner.localNames ++ index.localNames
  | .cell _ owner _ row column _ _ => owner.localNames ++ (row.localNames ++ column.localNames)

/-- The local variables in arguments. -/
def argumentNames : List Term → List String
  | [] => []
  | t :: ts => argumentNames ts ++ t.localNames

/-- The local variables in conditions. -/
def conditionNames : List Term → List String
  | [] => []
  | t :: ts => t.localNames ++ conditionNames ts

end

/-- A computed owner can be told from the marker: it is marked itself, or it is not the literal
that serves as one. -/
def Place.OwnerClear (owner : Term) (marked : Bool) : Prop :=
  marked = true ∨ owner.tree.isStackTopMarker = false

/-- What the machine asks of a variable that is pushed: only a computed owner is found on the
stack. -/
def Place.Readable : Place → Prop
  | .plain _ owner => owner ≠ .stackTop
  | .member _ _ _ => True
  | .element reference target _ _ _ =>
    target.owner ≠ .stackTop ∧
      (reference = .array ∨ reference = .multiPush ∨ reference = .multiPushPop)
  | .cell target _ _ _ _ _ _ => target.owner ≠ .stackTop

/-- What the machine asks of a variable that is stored to. -/
def Place.Writable : Place → Prop
  | .element reference _ _ _ _ => reference = .array
  | _ => True

mutual

/-- What the machine asks of a term: opcodes fit the places they stand at, called functions are
not the ones the machine keeps for itself, argument counts fit 16 bits, and owners and indices
are not mistaken for something else. -/
def Term.WellFormed (d : Dialect) : Term → Prop
  | .literal _ | .function _ => True
  | .read opcode place => opcode.isPush ∧ place.Readable ∧ place.WellFormed d
  | .unary operator operand => operator.opcode.isUnary ∧ operand.WellFormed d
  | .binary operator left right =>
    operator.opcode.isBinary ∧ left.WellFormed d ∧ right.WellFormed d
  | .call function arguments =>
    function ≠ Reserved.newObject ∧ function ≠ Reserved.copyStatic ∧
      arguments.length < UInt16.size ∧ WellFormedTerms d arguments
  | .callValue callee self arguments =>
    arguments.length < UInt16.size ∧ callee.WellFormed d ∧ self.WellFormed d ∧
      WellFormedTerms d arguments
  | .construct callee arguments =>
    arguments.length + 1 < UInt16.size ∧ callee.WellFormed d ∧ WellFormedTerms d arguments
  | .chain _ conditions => WellFormedTerms d conditions

/-- What the machine asks of the operands of an access. An index is not split in two. -/
def Place.WellFormed (d : Dialect) : Place → Prop
  | .plain _ _ => True
  | .member _ owner marked => Place.OwnerClear owner marked ∧ owner.WellFormed d
  | .element reference _ owner marked index =>
    Place.OwnerClear owner marked ∧ owner.WellFormed d ∧ index.WellFormed d ∧
      (reference = .array → d.unifiedArrays = true ∨ index.tree.rowAndColumn? = none)
  | .cell _ owner marked row column product sum =>
    d.unifiedArrays = false ∧ product.opcode = .multiply ∧ sum.opcode = .add ∧
      Place.OwnerClear owner marked ∧ owner.WellFormed d ∧ row.WellFormed d ∧
      column.WellFormed d

/-- The terms are well-formed. -/
def WellFormedTerms (d : Dialect) : List Term → Prop
  | [] => True
  | t :: ts => t.WellFormed d ∧ WellFormedTerms d ts

end

/-- A statement of the source. -/
inductive Command where
  /-- An assignment, by a store with two types. -/
  | assign (type1 type2 : SlotType) (place : Place) (value : Term)
  /-- A term evaluated for its effect. -/
  | eval (value : Term)
  /-- A return with a value. -/
  | ret (value : Term)
  /-- A return without a value. -/
  | exit
  /-- A jump out of the innermost loop. -/
  | leave
  /-- A jump to the next round of the innermost loop. -/
  | again
  /-- A branch. -/
  | branch (condition : Term) (thenPart : List Command) (elsePart : Option (List Command))
  /-- A loop. -/
  | loop (condition : Term) (body : List Command)
  /-- A guarded block and what runs after it in any case. -/
  | guarded (body : List Command) (cleanup : Option (List Command))

mutual

/-- The tree of a command. -/
def Command.tree : Command → Stmt
  | .assign _ _ place value => .assign (.ofShape (.access (place.access false))) value.tree
  | .eval value => .eval value.tree
  | .ret value => .ret value.tree
  | .exit => .exit
  | .leave => .leave
  | .again => .again
  | .branch condition thenPart elsePart =>
    .branch condition.tree ⟨commandTrees thenPart, true⟩ (optionalTree elsePart)
  | .loop condition body => .loop condition.tree ⟨commandTrees body, true⟩
  | .guarded body cleanup => .guarded ⟨commandTrees body, true⟩ (optionalTree cleanup)

/-- The trees of commands. -/
def commandTrees : List Command → List Stmt
  | [] => []
  | c :: cs => c.tree :: commandTrees cs

/-- The tree of commands in braces, if there are any. -/
def optionalTree : Option (List Command) → Option Block
  | none => none
  | some cs => some ⟨commandTrees cs, true⟩

end

mutual

/-- The code of a command. A return is preceded by a copy of the code of the innermost cleanup
around it; `copy` is that code, empty outside of all cleanups. -/
def Command.code (copy : List Piece) : Command → List Piece
  | .assign type1 type2 place value =>
    (if type1 = .int32 then place.code ++ value.code else value.code ++ place.code)
      ++ [.op (place.storeAs type1 type2)]
  | .eval value => value.code ++ [.op (.plain .popDelete)]
  | .ret value => copy ++ value.code ++ [.op (.plain .ret)]
  | .exit => copy ++ [.op (.plain .exit)]
  | .leave => [.node .leave]
  | .again => [.node .again]
  | .branch condition thenPart elsePart =>
    condition.code
      ++ [.node (.branch (Piece.pack (commandCode copy thenPart)) (optionalCode copy elsePart))]
  | .loop condition body =>
    [.node (.loop (Piece.pack condition.code) (Piece.pack (commandCode copy body)))]
  | .guarded body none => [.node (.guarded (Piece.pack (commandCode copy body)) none)]
  | .guarded body (some cleanup) =>
    [.node (.guarded (Piece.pack (commandCode (commandCode [] cleanup) body))
      (some (Piece.pack (commandCode [] cleanup))))]

/-- The code of commands that run one after another. -/
def commandCode (copy : List Piece) : List Command → List Piece
  | [] => []
  | c :: cs => c.code copy ++ commandCode copy cs

/-- The region of commands, if there are any. -/
def optionalCode (copy : List Piece) : Option (List Command) → Option (List Node)
  | none => none
  | some cs => some (Piece.pack (commandCode copy cs))

end

mutual

/-- The local variables that the code of a command refers to, in the order in which they are
met. A cleanup comes before the block it guards. -/
def Command.localNames (copy : List String) : Command → List String
  | .assign type1 _ place value =>
    (if type1 = .int32 then place.localNames ++ value.localNames
      else value.localNames ++ place.localNames) ++ place.target.localName
  | .eval value => value.localNames
  | .ret value => copy ++ value.localNames
  | .exit => copy
  | .leave | .again => []
  | .branch condition thenPart elsePart =>
    condition.localNames ++ commandNames copy thenPart ++ optionalNames copy elsePart
  | .loop condition body => condition.localNames ++ commandNames copy body
  | .guarded body none => commandNames copy body
  | .guarded body (some cleanup) =>
    commandNames [] cleanup ++ commandNames (commandNames [] cleanup) body

/-- The local variables in commands. -/
def commandNames (copy : List String) : List Command → List String
  | [] => []
  | c :: cs => c.localNames copy ++ commandNames copy cs

/-- The local variables in commands, if there are any. -/
def optionalNames (copy : List String) : Option (List Command) → List String
  | none => []
  | some cs => commandNames copy cs

end

/-- The local variables that a program declares: the ones its code refers to, each once, less
the one that the compiler uses for itself. -/
def declaredLocals (cs : List Command) : List String :=
  (commandNames [] cs).eraseDups.filter (· ≠ Reserved.temporary)

/-- The statements of a program: its trees, below the declaration of its local variables if it
has any. -/
def programTrees (cs : List Command) : List Stmt :=
  if (declaredLocals cs).isEmpty then commandTrees cs
  else .locals (declaredLocals cs) :: commandTrees cs

mutual

/-- What the machine asks of a command: jumps stand in a loop, a bit is not stored as a truth
value, and a term evaluated for its effect is not a bare variable. -/
def Command.WellFormed (d : Dialect) (inLoop : Bool) : Command → Prop
  | .assign _ type2 place value =>
    place.Writable ∧ place.WellFormed d ∧ value.WellFormed d ∧
      (type2 = .boolean → value.tree.bit? = none)
  | .eval value => value.WellFormed d ∧ value.tree.access? = none
  | .ret value => value.WellFormed d
  | .exit => True
  | .leave | .again => inLoop = true
  | .branch condition thenPart elsePart =>
    condition.WellFormed d ∧ WellFormedCommands d inLoop thenPart ∧
      WellFormedOptional d inLoop elsePart
  | .loop condition body => condition.WellFormed d ∧ WellFormedCommands d true body
  | .guarded body cleanup =>
    WellFormedCommands d inLoop body ∧ WellFormedOptional d inLoop cleanup

/-- The commands are well-formed. -/
def WellFormedCommands (d : Dialect) (inLoop : Bool) : List Command → Prop
  | [] => True
  | c :: cs => c.WellFormed d inLoop ∧ WellFormedCommands d inLoop cs

/-- The commands, if there are any, are well-formed. -/
def WellFormedOptional (d : Dialect) (inLoop : Bool) : Option (List Command) → Prop
  | none => True
  | some cs => WellFormedCommands d inLoop cs

end

mutual

/-- Every cleanup inside the command has a property. -/
def Command.EachCleanup (P : List Command → Prop) : Command → Prop
  | .assign _ _ _ _ | .eval _ | .ret _ | .exit | .leave | .again => True
  | .branch _ thenPart elsePart => EachCleanups P thenPart ∧ EachOptional P elsePart
  | .loop _ body => EachCleanups P body
  | .guarded body cleanup =>
    EachCleanups P body ∧ EachOptional P cleanup ∧ ∀ cs, cleanup = some cs → P cs

/-- Every cleanup inside the commands has a property. -/
def EachCleanups (P : List Command → Prop) : List Command → Prop
  | [] => True
  | c :: cs => c.EachCleanup P ∧ EachCleanups P cs

/-- Every cleanup inside the commands, if there are any, has a property. -/
def EachOptional (P : List Command → Prop) : Option (List Command) → Prop
  | none => True
  | some cs => EachCleanups P cs

end

mutual

/-- The command cannot end the routine: no return stands in it. -/
def Command.Returnless : Command → Prop
  | .ret _ | .exit => False
  | .assign _ _ _ _ | .eval _ | .leave | .again => True
  | .branch _ thenPart elsePart => ReturnlessCommands thenPart ∧ ReturnlessOptional elsePart
  | .loop _ body => ReturnlessCommands body
  | .guarded body cleanup => ReturnlessCommands body ∧ ReturnlessOptional cleanup

/-- No return stands in the commands. -/
def ReturnlessCommands : List Command → Prop
  | [] => True
  | c :: cs => c.Returnless ∧ ReturnlessCommands cs

/-- No return stands in the commands, if there are any. -/
def ReturnlessOptional : Option (List Command) → Prop
  | none => True
  | some cs => ReturnlessCommands cs

end

/-- The literal is a number or no double at all. -/
def Literal.NotNaN : Literal → Prop
  | .double value => value.isNaN = false
  | _ => True

/-- The literal of the instruction, if it has one, is not a NaN. -/
def Instruction.NotNaN (i : Instruction) : Prop :=
  ∀ value, i.literal = some value → value.NotNaN

mutual

/-- No literal in the term is a NaN. -/
def Term.NotNaN : Term → Prop
  | .literal value => value.NotNaN
  | .function _ => True
  | .read _ place => place.NotNaN
  | .unary operator operand => operator.NotNaN ∧ operand.NotNaN
  | .binary operator left right => operator.NotNaN ∧ left.NotNaN ∧ right.NotNaN
  | .call _ arguments => NotNaNTerms arguments
  | .callValue callee self arguments => callee.NotNaN ∧ self.NotNaN ∧ NotNaNTerms arguments
  | .construct callee arguments => callee.NotNaN ∧ NotNaNTerms arguments
  | .chain _ conditions => NotNaNTerms conditions

/-- No literal in the operands of the access is a NaN. -/
def Place.NotNaN : Place → Prop
  | .plain _ _ => True
  | .member _ owner _ => owner.NotNaN
  | .element _ _ owner _ index => owner.NotNaN ∧ index.NotNaN
  | .cell _ owner _ row column _ _ => owner.NotNaN ∧ row.NotNaN ∧ column.NotNaN

/-- No literal in the terms is a NaN. -/
def NotNaNTerms : List Term → Prop
  | [] => True
  | t :: ts => t.NotNaN ∧ NotNaNTerms ts

end

mutual

/-- No literal in the command is a NaN. -/
def Command.NotNaN : Command → Prop
  | .assign _ _ place value => place.NotNaN ∧ value.NotNaN
  | .eval value | .ret value => value.NotNaN
  | .exit | .leave | .again => True
  | .branch condition thenPart elsePart =>
    condition.NotNaN ∧ NotNaNCommands thenPart ∧ NotNaNOptional elsePart
  | .loop condition body => condition.NotNaN ∧ NotNaNCommands body
  | .guarded body cleanup => NotNaNCommands body ∧ NotNaNOptional cleanup

/-- No literal in the commands is a NaN. -/
def NotNaNCommands : List Command → Prop
  | [] => True
  | c :: cs => c.NotNaN ∧ NotNaNCommands cs

/-- No literal in the commands, if there are any, is a NaN. -/
def NotNaNOptional : Option (List Command) → Prop
  | none => True
  | some cs => NotNaNCommands cs

end

end GmlDecompiler
