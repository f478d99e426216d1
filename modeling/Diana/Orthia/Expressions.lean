import Diana.Orthia.Tokenizer

/-!
# Address expressions

The tree of nodes that `CaptureAddressExp` builds token by token. The entries of a node stand in a
list with the last one first, and a null pointer is a `missing` node. The current node lies on the
path from the root along the last entries, so its depth says which one it is.

* `Node.append`: what a node does with a token, and what it makes of the tree below it;
* `appendToken`: a token that a node does not take goes to the parent, in backtrack mode;
* `calcRoot`: the tree whose value is calculated, `captureAddressExp`: the value.
-/

namespace Diana.Expressions

open Diana.Orthia (Byte)
open Diana.Tokens (Token byteOf)

/-- `Address_type` -/
abbrev Value := BitVec 64

/-- What the nodes read of a token. -/
inductive Item where
  | eof
  /-- the reserved word `poi` -/
  | poi
  | reservedWord
  | name (text : List Byte)
  /-- the value if it is an integer -/
  | literal (value : Option Value)
  /-- `operatorValue` -/
  | sign (operator : List Char)
  | none
  deriving DecidableEq, Repr

/-- The id that `InitTokenizer` gets for the only reserved word. -/
def poiId : Nat := 1

/-- `Diana_ReadValue` -/
def readValue (data : List Byte) : Value := data.foldr (fun b v => v <<< 8 ||| b.setWidth 64) 0

def item (t : Token) : Item :=
  match t.type with
  | .eof => .eof
  | .reservedWord => if t.reservedWordId = poiId then .poi else .reservedWord
  | .literal => .literal (if t.literalType = .int then some (readValue t.data) else none)
  | .name => .name t.data
  | .specialSign => .sign t.multiByteChar
  | .none => .none

inductive Error where
  /-- `TokenError` -/
  | invalidToken
  /-- `NoTokenError` -/
  | valueExpected
  | runtime (text : String)
  /-- A null pointer is dereferenced. It is no exception. -/
  | nullPointer
  deriving DecidableEq, Repr

/-! ## The tree -/

/-- The fields of a `NameNode`, whose name is set as soon as it is made. -/
structure NameState where
  name : List Byte
  acceptedReg : Bool
  withBrackets : Bool
  wasLastBracket : Bool
  deriving DecidableEq, Repr

/-- The fields of a `SummNode`, which may be a `UnaryNode`. -/
structure SummState where
  unary : Bool
  withBrackets : Bool
  wasLastBracket : Bool
  deriving DecidableEq, Repr

inductive Node where
  | missing
  | address (address : Value)
  | name (s : NameState) (childNode : Node)
  /-- `PoiFunctionNode`, with `hasComma` -/
  | function (started finalized : Bool) (childs : List (Bool × Node))
  /-- with `multiply`, which is set when the operator behind the factor has come -/
  | multiply (childs : List (Option Bool × Node))
  /-- with `positive` -/
  | summ (s : SummState) (childs : List (Bool × Node))

/-- `AppendResult`, seen from a node that was asked: which node it names is said by a depth. -/
inductive Answer where
  /-- `flag_SentToParent`; the tree is unchanged. -/
  | sent (depth : Nat)
  /-- The node has become this one, and its parent is the current node. -/
  | parent (node : Node)
  /-- The node has become this one, and the current node is below it. -/
  | here (node : Node) (depth : Nat)

/-- The answer of the last entry, seen from the node around it. -/
def Answer.lift (set : Node → Node) : Answer → Answer
  | .sent depth => .sent (depth + 1)
  | .parent node => .here (set node) 0
  | .here node depth => .here (set node) (depth + 1)

abbrev Answered := Except Error Answer

def Answered.lift (set : Node → Node) : Answered → Answered
  | .error e => .error e
  | .ok a => .ok (a.lift set)

def Node.isMissing : Node → Bool
  | .missing => true
  | _ => false

section

variable {σ : Type}

/-- The last entry has a node. -/
def hasLast : List (σ × Node) → Bool
  | [] => false
  | (_, node) :: _ => !node.isMissing

/-- The last entry with another node. -/
def setLast (node : Node) : List (σ × Node) → List (σ × Node)
  | [] => []
  | (info, _) :: childs => (info, node) :: childs

end

def Node.last : Node → Node
  | .name _ childNode => childNode
  | .function _ _ ((_, node) :: _) => node
  | .multiply ((_, node) :: _) => node
  | .summ _ ((_, node) :: _) => node
  | _ => .missing

def Node.setLast (node last : Node) : Node :=
  match node with
  | .name s _ => .name s last
  | .function started finalized childs =>
    .function started finalized (Expressions.setLast last childs)
  | .multiply childs => .multiply (Expressions.setLast last childs)
  | .summ s childs => .summ s (Expressions.setLast last childs)
  | _ => node

/-! ## Leaves -/

/-- The node that `AppendToken` makes of a name. -/
def newName (text : List Byte) : Node := .name ⟨text, false, false, false⟩ .missing

/-- `AddressNode` -/
def addressAppend (address : Value) (t : Item) : Answered :=
  match t with
  | .eof => .ok (.parent (.address address))
  | .literal none => .error .invalidToken
  | _ => .ok (.sent 0)

/-! ## Sums -/

/-- `SummNode::AllocChild`, and the node of the last entry -/
def fillLast (node : Node) : List (Bool × Node) → List (Bool × Node)
  | [] => [(true, node)]
  | (positive, _) :: childs => (positive, node) :: childs

/-- `SummNode::AppendSpecialSign`; `forward` is the answer of the last entry, if it is asked. -/
def summAppendSpecialSign (back : Bool) (s : SummState) (childs : List (Bool × Node))
    (operator : List Char) (forward : Answered) : Answered :=
  let set node := Node.summ s (setLast node childs)
  if operator = ['+'] ∨ operator = ['-'] then
    match childs with
    | [] => .ok (.here (.summ s [(operator = ['+'], .missing)]) 0)
    | (positive, node) :: rest =>
      if node.isMissing then .ok
        (.here (.summ s ((positive == (operator = ['+']), node) :: rest)) 0)
      else .ok (.here (.summ s ((operator = ['+'], .missing) :: childs)) 0)
  else if operator = ['('] then
    if hasLast childs then .error .invalidToken
    else .ok (.here (.summ s (fillLast (.summ ⟨false, true, false⟩ []) childs)) 1)
  else if operator = [')'] then
    match childs with
    | [] => .error .invalidToken
    | _ =>
      if !s.withBrackets ∨ s.wasLastBracket then .ok (.sent 0)
      else .ok (.parent (.summ { s with wasLastBracket := true } childs))
  else if operator = ['/'] ∨ operator = ['*'] then
    match childs with
    | [] => .error .invalidToken
    | (positive, node) :: rest =>
      if node.isMissing then .error .invalidToken
      else .ok (.here (.summ s ((positive, .multiply [(some (operator = ['*']), node)]) :: rest)) 1)
  else if operator = ['!'] then
    if !hasLast childs then .error .invalidToken
    else if back then .ok (.sent 0)
    else
      match forward with
      | .error e => .error e
      | .ok (.sent _) => .ok (.sent 0)
      | .ok (.parent node) => .ok (.here (set node) 0)
      | .ok (.here node _) => .ok (.here (set node) 0)
  else if !hasLast childs then .error .invalidToken
  else if back then .ok (.sent 0)
  else forward.lift set

/-- `SummNode::AppendToken` -/
def summAppendToken (back : Bool) (s : SummState) (childs : List (Bool × Node)) (t : Item)
    (forward : Answered) : Answered :=
  let forwarded := if back then .ok (.sent 0)
      else forward.lift fun node => .summ s (setLast node childs)
  match t with
  | .poi =>
    if hasLast childs then forwarded
      else .ok (.here (.summ s (fillLast (.function false false []) childs)) 1)
  | .reservedWord =>
    -- as a name, which the new node does not take
    if hasLast childs then forwarded else .error .invalidToken
  | .name text =>
    if hasLast childs then forwarded else .ok (.here (.summ s (fillLast (newName text) childs)) 0)
  | .literal none => .error .invalidToken
  | .literal (some value) =>
    if hasLast childs then forwarded else .ok (.here (.summ s (fillLast (.address value) childs)) 0)
  | _ => .error .invalidToken

/-- `SummNode::Finalize` -/
def summFinalize (s : SummState) (childs : List (Bool × Node)) : Except Error Unit :=
  if childs.isEmpty then .error .valueExpected
  else if s.withBrackets ∧ !s.wasLastBracket then .error .valueExpected
  else if !hasLast childs then .error .valueExpected
  else .ok ()

/-- `UnaryNode::Append`, `SummNode::Append` -/
def summAppend (back : Bool) (s : SummState) (childs : List (Bool × Node)) (t : Item)
    (forward : Answered) : Answered :=
  if s.unary ∧ !s.withBrackets ∧ hasLast childs then .ok (.sent 0)
  else
    match t with
    | .eof => (summFinalize s childs).map fun _ => .parent (.summ s childs)
    | .sign operator => summAppendSpecialSign back s childs operator forward
    | _ => summAppendToken back s childs t forward

/-- What a node without entries does with a token. -/
def newSummAppend (back : Bool) (s : SummState) (t : Item) :
    Answered := summAppend back s [] t (.error .nullPointer)

/-! ## Products -/

/-- `MultiplyNode::AllocChild` for a node, which is set before anything else is done -/
def allocFactor (node : Node) (childs : List (Option Bool × Node)) :
    Except Error (List (Option Bool × Node)) :=
  match childs with
  | (_, .missing) :: _ => .error (.runtime "Internal error")
  | _ => .ok ((none, node) :: childs)

/-- An operator stands behind the last factor, or there is none. -/
def pending : List (Option Bool × Node) → Bool
  | [] => true
  | (multiply, _) :: _ => multiply.isSome

/-- `MultiplyNode::AppendToken` with a name or a literal, for which there is a new node -/
def multiplyAppendFactor (back : Bool) (childs : List (Option Bool × Node)) (node : Node)
    (forward : Answered) : Answered :=
  if !pending childs then if back then .ok (.sent 0)
    else forward.lift fun node => .multiply (setLast node childs)
  else (allocFactor node childs).map fun childs => .here (.multiply childs) 0

/-- `MultiplyNode::AppendSpecialSign` from `case '!'` on, where the answer of the last factor is
ignored -/
def multiplyAppendMark (back : Bool) (childs : List (Option Bool × Node)) (forward : Answered) :
    Answered :=
  if pending childs ∨ !hasLast childs then .error .invalidToken
  else if back then .ok (.sent 0)
  else
    match forward with
    | .error e => .error e
    | .ok (.sent _) => .ok (.here (.multiply childs) 0)
    | .ok (.parent node) => .ok (.here (.multiply (setLast node childs)) 0)
    | .ok (.here node _) => .ok (.here (.multiply (setLast node childs)) 0)

/-- `MultiplyNode::AppendSpecialSign` -/
def multiplyAppendSpecialSign (back : Bool) (childs : List (Option Bool × Node))
    (operator : List Char) (forward : Answered) : Answered :=
  if operator = ['*'] ∨ operator = ['/'] then
    match childs with
    | [] => .error .invalidToken
    | (multiply, node) :: rest =>
      if multiply.isSome then .error .invalidToken
      else .ok (.here (.multiply ((some (operator = ['*']), node) :: rest)) 0)
  else if operator = ['+'] ∨ operator = ['-'] ∨ operator = ['('] then
    if childs.isEmpty then .error .invalidToken
    else if pending childs then
      let hasBracket : Bool := operator = ['(']
      let s : SummState := ⟨true, hasBracket, false⟩
      match allocFactor (.summ s []) childs with
      | .error e => .error e
      | .ok childs =>
        if !hasBracket then (newSummAppend back s (.sign operator)).lift fun node =>
          .multiply (setLast node childs)
        else .ok (.here (.multiply childs) 1)
    else multiplyAppendMark back childs forward
  else if operator = ['!'] then multiplyAppendMark back childs forward
  else .ok (.sent 0)

/-- `MultiplyNode::Finalize` -/
def multiplyFinalize (childs : List (Option Bool × Node)) : Except Error Unit :=
  if pending childs then .error .valueExpected else .ok ()

/-- `MultiplyNode::Append` -/
def multiplyAppend (back : Bool) (childs : List (Option Bool × Node)) (t : Item)
    (forward : Answered) : Answered :=
  match t with
  | .eof => (multiplyFinalize childs).map fun _ => .parent (.multiply childs)
  | .sign operator => multiplyAppendSpecialSign back childs operator forward
  | .name text => multiplyAppendFactor back childs (newName text) forward
  | .literal none => .error .invalidToken
  | .literal (some value) => multiplyAppendFactor back childs (.address value) forward
  | _ => .ok (.sent 0)

/-! ## Functions -/

/-- There is no argument, or a comma (or the closing bracket) stands behind the last one. -/
def argumentEnded : List (Bool × Node) → Bool
  | [] => true
  | (hasComma, _) :: _ => hasComma

/-- `FunctionNode::CreateArgument`: what the argument says of the current node is not used. -/
def createArgument (back started finalized : Bool) (childs : List (Bool × Node)) (t : Item) :
    Answered :=
  let made node := Node.function started finalized ((false, node) :: childs)
  match childs with
  | (_, .missing) :: _ => .error (.runtime "Internal error")
  | _ =>
    match newSummAppend back ⟨false, false, false⟩ t with
    | .error e => .error e
    | .ok (.sent _) => .ok (.sent 0)
    | .ok (.parent node) => .ok (.here (made node) 0)
    | .ok (.here node _) => .ok (.here (made node) 0)

/-- `FunctionNode::AppendSpecialSign` -/
def functionAppendSpecialSign (started finalized : Bool) (childs : List (Bool × Node))
    (operator : List Char) : Answered :=
  if operator = ['('] then
    if started then .error .invalidToken else .ok (.here (.function true finalized childs) 0)
  else if operator = [')'] then
    if finalized ∨ !started then .error .invalidToken
    else
      match childs with
      | [] => .error .invalidToken
      | (hasComma, node) :: rest =>
        if hasComma then .error .invalidToken
          else .ok (.parent (.function started true ((true, node) :: rest)))
  else if operator = [','] then
    match childs with
    | [] => .error .invalidToken
    | (hasComma, node) :: rest =>
      if hasComma then .error .invalidToken
      else if finalized ∨ !started then .error .invalidToken
      else .ok (.here (.function started finalized ((true, node) :: rest)) 0)
  else .ok (.sent 0)

/-- `FunctionNode::Append` -/
def functionAppend (back started finalized : Bool) (childs : List (Bool × Node)) (t : Item)
    (forward : Answered) : Answered :=
  if t ≠ .eof ∧ started ∧ !finalized ∧ argumentEnded childs then
    if back then .error .invalidToken else createArgument back started finalized childs t
  else if t ≠ .eof ∧ started ∧ !finalized ∧ !back then
    forward.lift fun node => .function started finalized (setLast node childs)
  else
    match t with
    | .eof =>
      if !started ∨ !finalized then .error .valueExpected
        else .ok (.parent (.function started finalized childs))
    | .sign operator => functionAppendSpecialSign started finalized childs operator
    | _ => .ok (.sent 0)

/-! ## Names -/

/-- Names of `segRegisters`, as `Downcase` gives them. -/
def isSegRegister (name : List Byte) : Bool :=
  let downcase (b : Byte) := if 0x41 ≤ b.toNat ∧ b.toNat ≤ 0x5a then b + 0x20 else b
  name.map downcase ∈ [['d', 's'].map byteOf, ['c', 's'].map byteOf]

/-- `NameNode::AppendSpecialSign` -/
def nameAppendSpecialSign (s : NameState) (childNode : Node) (operator : List Char) : Answered :=
  if operator = [':'] then
    if s.acceptedReg ∨ s.withBrackets then .error .invalidToken
    else if isSegRegister s.name then .ok (.here (.name { s with acceptedReg := true } childNode) 0)
    else .error (.runtime "Unknown segment register: ")
  else if operator = ['['] then
    if s.withBrackets then .error .invalidToken
    else .ok (.here (.name { s with withBrackets := true } (.summ ⟨false, true, false⟩ [])) 0)
  else if operator = [']'] then
    if !s.withBrackets ∨ s.wasLastBracket then .ok (.sent 0)
    else .ok (.parent (.name { s with wasLastBracket := true } childNode))
  else .error .invalidToken

/-- `NameNode::Append` -/
def nameAppend (back : Bool) (s : NameState) (childNode : Node) (t : Item) (forward : Answered) :
    Answered :=
  if t ≠ .eof ∧ !back ∧ !childNode.isMissing then forward.lift fun node => .name s node
  else
    match t with
    | .eof =>
      if s.withBrackets ∧ !s.wasLastBracket then .error .valueExpected
        else .ok (.parent (.name s childNode))
    | .sign operator => nameAppendSpecialSign s childNode operator
    | .name _ => .ok (.sent 0)
    | .literal _ => .ok (.sent 0)
    | _ => .error .invalidToken

/-! ## The loop -/

/-- `ICalcNode::Append` -/
def Node.append (back : Bool) (t : Item) : Node → Answered
  | .missing => .error .nullPointer
  | .address a => addressAppend a t
  | .name s childNode => nameAppend back s childNode t (childNode.append back t)
  | .function started finalized [] =>
    functionAppend back started finalized [] t (.error .nullPointer)
  | .function started finalized ((hasComma, node) :: childs) =>
    functionAppend back started finalized ((hasComma, node) :: childs) t (node.append back t)
  | .multiply [] => multiplyAppend back [] t (.error .nullPointer)
  | .multiply ((operator, node) :: childs) =>
    multiplyAppend back ((operator, node) :: childs) t (node.append back t)
  | .summ s [] => summAppend back s [] t (.error .nullPointer)
  | .summ s ((positive, node) :: childs) =>
    summAppend back s ((positive, node) :: childs) t (node.append back t)

/-- `Append` of the node at a depth. -/
def Node.appendAt (back : Bool) (t : Item) : (depth : Nat) → Node → Answered
  | 0, node => node.append back t
  | depth + 1, node => (appendAt back t depth node.last).lift node.setLast

/-- The root and the depth of the current node. -/
structure State where
  root : Node
  depth : Nat

/-- `CreateRootNode` -/
def createRootNode : State := ⟨.summ ⟨false, false, false⟩ [], 0⟩

/-- The parents of a node that has sent a token, in backtrack mode: `none` if even the
root does not take it. -/
def appendToParents (t : Item) (root : Node) : (depth : Nat) → Except Error (Option State)
  | 0 => .ok none
  | depth + 1 =>
    match root.appendAt true t depth with
    | .error e => .error e
    -- a node that does not ask another one sends itself
    | .ok (.sent _) => appendToParents t root depth
    -- the parent of the root is the root itself
    | .ok (.parent root) => .ok (some ⟨root, 0⟩)
    | .ok (.here root depth) => .ok (some ⟨root, depth⟩)

/-- `AppendToken` -/
def appendToken (t : Item) (s : State) : Except Error (Option State) :=
  match s.root.appendAt false t s.depth with
  | .error e => .error e
  | .ok (.sent depth) => appendToParents t s.root depth
  | .ok (.parent root) => .ok (some ⟨root, 0⟩)
  | .ok (.here root depth) => .ok (some ⟨root, depth⟩)

/-- The loop over the tokens. -/
def appendTokens : List Item → State → Except Error State
  | [], s => .ok s
  | t :: ts, s =>
    match appendToken t s with
    | .error e => .error e
    | .ok none => .error .invalidToken
    | .ok (some s) => appendTokens ts s

/-! ## The value -/

/-- `INameResolver` -/
structure NameResolver where
  queryAddress : List Byte → Except String Value
  dereference : Value → Except String Value
  matchKnownNamePrefix : List Char → Nat
  matchKnownNamePrefix_le : ∀ text, matchKnownNamePrefix text ≤ text.length

mutual

/-- `ICalcNode::Calc` -/
def Node.calc (R : NameResolver) : Node → Except Error Value
  | .missing => .error .nullPointer
  | .address a => .ok a
  | .name s childNode =>
    if childNode.isMissing then (R.queryAddress s.name).mapError .runtime else childNode.calc R
  | .function _ _ [(_, node)] => do (R.dereference (← node.calc R)).mapError .runtime
  | .function _ _ _ => .error (.runtime "poi function expects 1 argument")
  | .multiply childs => if childs.length < 2 then .error .valueExpected else product R childs
  | .summ _ childs => sum R childs

/-- The loop of `SummNode::Calc` -/
def sum (R : NameResolver) : List (Bool × Node) → Except Error Value
  | [] => .ok 0
  | (positive, node) :: childs => do
    let result ← sum R childs
    let value ← node.calc R
    .ok (if positive then result + value else result - value)

/-- The loop of `MultiplyNode::Calc` -/
def product (R : NameResolver) : List (Option Bool × Node) → Except Error Value
  | [] => .error .valueExpected
  | [(_, node)] => node.calc R
  | (_, node) :: (operator, before) :: childs => do
    let result ← product R ((operator, before) :: childs)
    let value ← node.calc R
    if operator.getD true then .ok (result * value)
    else if value = 0 then .error (.runtime "Can't divide by zero")
    else .ok (result / value)

end

/-- The turns in which the nodes from the current one to the root are finalized; `flag_SentToParent`
is not looked at. -/
def finalizeTurns (t : Item) : (turns : Nat) → State → Except Error State
  | 0, s => .ok s
  | turns + 1, s =>
    if s.depth = 0 then .ok s
    else
      match s.root.appendAt false t s.depth with
      | .error e => .error e
      | .ok (.sent depth) => finalizeTurns t turns ⟨s.root, depth⟩
      | .ok (.parent root) => finalizeTurns t turns ⟨root, 0⟩
      | .ok (.here root depth) => finalizeTurns t turns ⟨root, depth⟩

def maxDepth : Nat := 10000

/-- `CaptureAddressExp` of a tree with the last token, up to the call of `Calc`. -/
def finalizeAll (t : Item) (s : State) : Except Error Node := do
  let s ← finalizeTurns t maxDepth s
  if s.depth ≠ 0 then .error (.runtime "Internal error") else .ok s.root

/-- The tree that `CaptureAddressExp` makes of the tokens before the end. -/
def calcRoot (ts : List Item) : Except Error Node := do
  finalizeAll .eof (← appendTokens (ts ++ [.eof]) createRootNode)

/-- `CaptureAddressExp` -/
def captureAddressExp (R : NameResolver) (ts : List Item) : Except Error Value := do
  (← calcRoot ts).calc R

end Diana.Expressions
