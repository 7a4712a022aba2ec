import Mathlib.Logic.Function.Iterate
import Vedruino.Lib.Forest

/-!
# The parser of `lib/lwjson`

The parser reads a text into tokens from an array that its caller owns. The children of a token are a list linked by `next`, and the `next` of a token whose closing bracket has not been read leads to its parent. A pointer into the text is the memory from there on, so a read of the empty memory is a read out of bounds.
-/

namespace Vedruino.Lwjson

/-- `lwjson_type_t` -/
inductive LwjsonType
  | string | numInt | numReal | object | array | true_ | false_ | null
  deriving DecidableEq, Repr

/-- `lwjsonr_t` -/
inductive Lwjsonr
  | ok | err | errJson | errMem | errPar | streamWaitFirstChar | streamDone | streamInProg
  deriving DecidableEq, Repr

/-- `first_token`, or a token of the array. -/
inductive Ref
  | firstToken
  | token (i : Nat)
  deriving DecidableEq, Repr

/-- The union of a token, `zero` before anything is written to it. -/
inductive U (R : Type)
  | zero
  | str (tokenValue : List UInt8) (tokenValueLen : Nat)
  | numReal (numReal : R)
  | numInt (numInt : BitVec 64)
  | firstChild (firstChild : Ref)
  deriving DecidableEq, Repr

/-- `lwjson_token_t` -/
structure Token (R : Type) where
  next : Option Ref
  type : LwjsonType
  tokenName : Option (List UInt8)
  tokenNameLen : Nat
  u : U R
  deriving DecidableEq, Repr

/-- `lwjson_t`; `tokens_len` is the length of `tokens`. -/
structure LwjsonT (R : Type) where
  tokens : List (Token R)
  nextFreeTokenPos : Nat
  firstToken : Token R
  parsed : Bool
  deriving DecidableEq, Repr

/-- What `lwjson_real_t` computes with. -/
class LwReal (R : Type) where
  ofInt : Int → R
  add : R → R → R
  mul : R → R → R
  div : R → R → R
  neg : R → R

/-- How a function ends: with a read out of bounds, with a code, or with a value. -/
inductive Outcome (α : Type)
  | fault
  | ret (r : Lwjsonr)
  | ok (a : α)
  deriving DecidableEq, Repr

variable {R α β : Type}

def Outcome.bind (x : Outcome α) (f : α → Outcome β) : Outcome β :=
  match x with
  | .fault => .fault
  | .ret r => .ret r
  | .ok a => f a

instance : Monad Outcome where
  pure := .ok
  bind := .bind

@[simp] theorem Outcome.ok_bind (a : α) (f : α → Outcome β) : (Outcome.ok a >>= f) = f a := rfl

@[simp] theorem Outcome.ret_bind (r : Lwjsonr) (f : α → Outcome β) : (Outcome.ret r >>= f) = .ret r := rfl

@[simp] theorem Outcome.fault_bind (f : α → Outcome β) : (Outcome.fault >>= f) = .fault := rfl

@[simp] theorem Outcome.pure_eq (a : α) : (pure a : Outcome α) = .ok a := rfl

def orFault : Option α → Outcome α
  | none => .fault
  | some a => .ok a

@[simp] theorem orFault_some (a : α) : orFault (some a) = .ok a := rfl

/-! ### Tokens -/

def Token.zero : Token R := ⟨none, .string, none, 0, .zero⟩

/-- `u.first_child`; `none` where another member was written. -/
def Token.firstChild (t : Token R) : Option (Option Ref) :=
  match t.u with
  | .zero => some none
  | .firstChild r => some (some r)
  | _ => none

def LwjsonT.deref (o : LwjsonT R) : Ref → Option (Token R)
  | .firstToken => some o.firstToken
  | .token i => o.tokens[i]?

def LwjsonT.write (o : LwjsonT R) (r : Ref) (f : Token R → Token R) : Option (LwjsonT R) :=
  match r with
  | .firstToken => some { o with firstToken := f o.firstToken }
  | .token i => if i < o.tokens.length then some { o with tokens := o.tokens.modify i f } else none

def prvAllocToken (o : LwjsonT R) : LwjsonT R × Option Ref :=
  if o.nextFreeTokenPos < o.tokens.length then
    ({ o with tokens := o.tokens.set o.nextFreeTokenPos .zero, nextFreeTokenPos := o.nextFreeTokenPos + 1 },
      some (.token o.nextFreeTokenPos))
  else (o, none)

/-- The code under `Add element to linked list`. -/
def addElement (o : LwjsonT R) (into t : Ref) : Option (LwjsonT R) := do
  let parent ← o.deref into
  match ← parent.firstChild with
  | none => o.write into fun parent => { parent with u := .firstChild t }
  | some c =>
    let c ← Forest.lastFrom Token.next o.deref (o.tokens.length + 1) c
    o.write c fun c => { c with next := some t }

/-! ### Text -/

abbrev ch (c : Char) : UInt8 := UInt8.ofNat c.toNat

def isBlank (c : UInt8) : Bool := [ch ' ', ch '\t', ch '\r', ch '\n', 0x0c].contains c

def isDigit (c : UInt8) : Bool := ch '0' ≤ c && c ≤ ch '9'

def isHex (c : UInt8) : Bool := isDigit c || (ch 'a' ≤ c && c ≤ ch 'f') || (ch 'A' ≤ c && c ≤ ch 'F')

def isSimpleEscape (c : UInt8) : Bool :=
  [ch '"', ch '\\', ch '/', ch 'b', ch 'f', ch 'n', ch 'r', ch 't'].contains c

def read : List UInt8 → Outcome UInt8
  | [] => .fault
  | c :: _ => .ok c

@[simp] theorem read_cons (c : UInt8) (p : List UInt8) : read (c :: p) = .ok c := rfl

/-- Whether `strncmp` gives zero. -/
def strncmp : Nat → List UInt8 → List UInt8 → Outcome Bool
  | 0, _, _ => .ok true
  | n + 1, c :: s, d :: t => if c = d then (if c = 0 then .ok true else strncmp n s t) else .ok false
  | _ + 1, _, _ => .fault

def strlen : List UInt8 → Option Nat
  | [] => none
  | c :: p => if c = 0 then some 0 else (strlen p).map (· + 1)

section

-- What `pobj` holds beside `p`.
variable (start : List UInt8) (len : Nat)

/-- `(size_t)(pobj->p - pobj->start) < pobj->len` -/
def inside (p : List UInt8) : Prop := start.length - p.length < len

instance (p : List UInt8) : Decidable (inside start len p) := inferInstanceAs (Decidable (_ < _))

/-- Where the loop of `prv_skip_blank` stops. -/
def skipBlanks : List UInt8 → Option (List UInt8)
  | [] => none
  | c :: p => if c ≠ 0 ∧ inside start len (c :: p) ∧ isBlank c then skipBlanks p else some (c :: p)

def prvSkipBlank (p : List UInt8) : Option (Lwjsonr × List UInt8) :=
  match skipBlanks start len p with
  | some (c :: p) => some (if c ≠ 0 ∧ inside start len (c :: p) then .ok else .errJson, c :: p)
  | _ => none

/-- `prv_skip_blank` where its caller returns what is not `lwjsonOK`. -/
def skipBlank (p : List UInt8) : Outcome (List UInt8) :=
  match prvSkipBlank start len p with
  | none => .fault
  | some (.ok, p) => .ok p
  | some (r, _) => .ret r

/-- The loop of `prv_parse_string`, with `len` of that function. -/
def stringLoop : List UInt8 → Nat → Outcome (List UInt8 × Nat)
  | [], _ => .fault
  | c :: p, n =>
    if c = 0 ∨ ¬ inside start len (c :: p) then .ret .errJson
    else if c = ch '\\' then
      match p with
      | [] => .fault
      | e :: p =>
        if isSimpleEscape e then stringLoop p (n + 2)
        else if e = ch 'u' then
          match p with
          | a :: b :: c :: d :: p =>
            if isHex a && isHex b && isHex c && isHex d then stringLoop p (n + 6) else .ret .errJson
          | p => if p.all isHex then .fault else .ret .errJson
        else .ret .errJson
    else if c = ch '"' then .ok (p, n)
    else stringLoop p (n + 1)

/-- What is left of the text, `pout` and `poutlen`. -/
def prvParseString (p : List UInt8) : Outcome (List UInt8 × List UInt8 × Nat) := do
  let p ← skipBlank start len p
  let c ← read p
  if c ≠ ch '"' then .ret .errJson
  else
    let (rest, n) ← stringLoop start len p.tail 0
    pure (rest, p.tail, n)

def prvParsePropertyName (p : List UInt8) : Outcome (List UInt8 × List UInt8 × Nat) := do
  let (p, name, n) ← prvParseString start len p
  let p ← skipBlank start len p
  let c ← read p
  if c ≠ ch ':' then .ret .errJson
  else
    let p ← skipBlank start len p.tail
    pure (p, name, n)

/-- `n * 10 + (c - '0')`; signed overflow wraps. -/
def pushDigit (n : BitVec 64) (c : UInt8) : BitVec 64 := n * 10 + (BitVec.ofNat 64 c.toNat - 0x30)

/-- A loop over digits. -/
def digits : List UInt8 → BitVec 64 → Outcome (List UInt8 × BitVec 64)
  | [], _ => .fault
  | c :: p, n => if isDigit c then digits p (pushDigit n c) else .ok (c :: p, n)

variable [LwReal R]

open LwReal (ofInt)

/-- The loop over the digits after the point. -/
def decimals : List UInt8 → R → BitVec 64 → Outcome (List UInt8 × R × BitVec 64)
  | [], _, _ => .fault
  | c :: p, exp, n =>
    if isDigit c then decimals p (LwReal.mul exp (ofInt 10)) (pushDigit n c) else .ok (c :: p, exp, n)

/-- The branch of `prv_parse_number` for a number with a point, after the point. -/
def parseFraction (p : List UInt8) (realNum : R) : Outcome (List UInt8 × R) := do
  let c ← read p
  if !isDigit c then .ret .errJson
  else
    let (p, exp, decNum) ← decimals p (ofInt 1) 0
    pure (p, LwReal.add realNum (LwReal.div (ofInt decNum.toInt) exp))

/-- The branch of `prv_parse_number` for a number with an exponent, after the letter. -/
def parseExponent (p : List UInt8) (realNum : R) : Outcome (List UInt8 × R) := do
  let c ← read p
  let isMinusExp := c = ch '-'
  let p := if isMinusExp then p.tail else p
  let c ← read p
  let p := if c = ch '+' then p.tail else p
  let c ← read p
  if !isDigit c then .ret .errJson
  else
    let (p, expCnt) ← digits p 0
    let scale (r : R) : R := if isMinusExp then LwReal.div r (ofInt 10) else LwReal.mul r (ofInt 10)
    pure (p, scale^[expCnt.toInt.toNat] realNum)

def isPoint (c : UInt8) : Bool := c = ch '.'

def isExpMark (c : UInt8) : Bool := c = ch 'e' ∨ c = ch 'E'

/-- The part of a number that a mark opens; with it the number is real. -/
def parsePart (mark : UInt8 → Bool) (parse : List UInt8 → R → Outcome (List UInt8 × R)) (p : List UInt8) (realNum : R)
    (type : LwjsonType) : Outcome (List UInt8 × R × LwjsonType) := do
  let c ← read p
  if mark c then
    let (p, realNum) ← parse p.tail realNum
    pure (p, realNum, .numReal)
  else pure (p, realNum, type)

/-- The check of the characters after the sign. What it asks of the character after a zero holds of none. -/
def isInvalidStart (p : List UInt8) : Outcome Bool := do
  let c ← read p
  let c₁ ← if c = ch '0' then read p.tail else pure 0
  pure (c = 0 ∨ c < ch '0' ∨ ch '9' < c ∨ (c = ch '0' ∧ c₁ < ch '0' ∧ ch '9' < c₁))

def prvParseNumber (p : List UInt8) : Outcome (List UInt8 × LwjsonType × U R) := do
  let p ← skipBlank start len p
  let c ← read p
  if c = 0 ∨ ¬ inside start len p then .ret .errJson
  else
    let isMinus := c = ch '-'
    let p := if isMinus then p.tail else p
    if ← isInvalidStart p then .ret .errJson
    else
      let (p, intNum) ← digits p 0
      let (p, realNum, type) ← parsePart isPoint parseFraction p (ofInt intNum.toInt) .numInt
      let (p, realNum, type) ← parsePart isExpMark parseExponent p realNum type
      pure (p, type, if type = .numInt then .numInt (if isMinus then -intNum else intNum)
        else .numReal (if isMinus then LwReal.neg realNum else realNum))

/-- `prv_check_valid_char_after_open_bracket` for a token of that type. -/
def prvCheckValidCharAfterOpenBracket (p : List UInt8) (type : LwjsonType) : Outcome (List UInt8) := do
  let p ← skipBlank start len p
  let c ← read p
  if c = 0 ∨ (type = .object ∧ ¬ (c = ch '"' ∨ c = ch '\x7d')) ∨
      (type = .array ∧ ¬ ([ch '"', ch ']', ch '[', ch '\x7b', ch '-', ch 't', ch 'n', ch 'f'].contains c ∨ isDigit c)) then
    .ret .errJson
  else pure p

/-! ### The main loop -/

/-- One of the names `true`, `false` and `null`. -/
def parseName (p : List UInt8) (name : List UInt8) (type : LwjsonType) : Outcome (List UInt8 × LwjsonType × U R) := do
  let same ← strncmp name.length p (name ++ [0])
  if same then pure (p.drop name.length, type, .zero) else .ret .errJson

/-- The cases of the `switch` for what is not a container; the type of the token and its union. -/
def parseScalar (p : List UInt8) (c : UInt8) : Outcome (List UInt8 × LwjsonType × U R) :=
  if c = ch '"' then do
    let (p, value, n) ← prvParseString start len p
    pure (p, .string, .str value n)
  else if c = ch 't' then parseName p [ch 't', ch 'r', ch 'u', ch 'e'] .true_
  else if c = ch 'f' then parseName p [ch 'f', ch 'a', ch 'l', ch 's', ch 'e'] .false_
  else if c = ch 'n' then parseName p [ch 'n', ch 'u', ch 'l', ch 'l'] .null
  else if c = ch '-' ∨ isDigit c then
    match prvParseNumber start len p with
    | .ret _ => .ret .errJson
    | x => x
  else .ret .errJson

/-- The variables of the loop, with `to` as `into`. -/
structure St (R : Type) where
  o : LwjsonT R
  into : Ref
  p : List UInt8

/-- The children of an array have no names. -/
def parseChildName (o : LwjsonT R) (type : LwjsonType) (t : Ref) (p : List UInt8) : Outcome (List UInt8 × LwjsonT R) :=
  if type ≠ .array then do
    let c ← read p
    if c ≠ ch '"' then .ret .errJson
    else
      let (p, name, n) ← prvParsePropertyName start len p
      let o ← orFault (o.write t fun t => { t with tokenName := some name, tokenNameLen := n })
      pure (p, o)
  else pure (p, o)

/-- The case of the `switch` for an opening bracket. -/
def parseContainer (o : LwjsonT R) (into t : Ref) (c : UInt8) (p : List UInt8) : Outcome (St R) := do
  let type := if c = ch '\x7b' then LwjsonType.object else .array
  let p ← prvCheckValidCharAfterOpenBracket start len p.tail type
  -- the parent is kept where the next sibling will stand
  let o ← orFault (o.write t fun t => { t with type, next := some into })
  pure ⟨o, t, p⟩

/-- The other cases, and the check of what follows. -/
def parseLeaf (o : LwjsonT R) (into t : Ref) (c : UInt8) (p : List UInt8) : Outcome (St R) := do
  let (p, type, u) ← parseScalar start len p c
  let o ← orFault (o.write t fun t => { t with type, u })
  let p ← skipBlank start len p
  let c ← read p
  if c = 0 ∨ ¬ (c = ch ',' ∨ c = ch ']' ∨ c = ch '\x7d') then .ret .errJson
  else pure ⟨o, into, if c = ch ',' then p.tail else p⟩

/-- A round of the loop after a token was allocated. -/
def parseElement (o : LwjsonT R) (into t : Ref) (p : List UInt8) : Outcome (St R) := do
  let parent ← orFault (o.deref into)
  let (p, o) ← parseChildName start len o parent.type t p
  let o ← orFault (addElement o into t)
  let c ← read p
  if c = ch '\x7b' ∨ c = ch '[' then parseContainer start len o into t c p else parseLeaf start len o into t c p

/-- Where a round of the loop goes. -/
inductive Next (R : Type)
  | fault
  | ret (res : Lwjsonr) (o : LwjsonT R)
  | again (s : St R)

/-- The end of the text after the closing bracket of `first_token`. -/
def checkTerminated (p : List UInt8) : Option Lwjsonr :=
  match prvSkipBlank start len p with
  | some (_, c :: p) => some (if c = 0 ∨ start.length - (c :: p).length = len then .ok else .err)
  | _ => none

/-- A round of the loop. -/
def parseRound (s : St R) : Next R :=
  match skipBlank start len s.p with
  | .fault | .ok [] => .fault
  | .ret r => .ret r s.o
  | .ok (c :: p) =>
    if c = ch ',' then .again { s with p }
    else
      match s.o.deref s.into with
      | none => .fault
      | some parent =>
        if c = (if parent.type = .object then ch '\x7d' else ch ']') then
          match s.o.write s.into fun parent => { parent with next := none } with
          | none => .fault
          | some o =>
            match parent.next with
            | some outer => .again ⟨o, outer, p⟩
            | none =>
              match checkTerminated start len p with
              | none => .fault
              | some r => .ret r o
        else
          match prvAllocToken s.o with
          | (o, none) => .ret .errMem o
          | (o, some t) =>
            match parseElement start len o s.into t (c :: p) with
            | .fault => .fault
            | .ret r => .ret r o
            | .ok s => .again s

/-- What the code under the loop makes of the result `lwjsonOK` of the last round. -/
def afterLoop (s : St R) : Option (Lwjsonr × LwjsonT R) := do
  let first ← s.o.deref s.into
  if s.into ≠ .firstToken ∨ first.next ≠ none then pure (.errJson, s.o)
  else
    let o ← s.o.write s.into fun parent => { parent with tokenName := none, tokenNameLen := 0 }
    pure (if first.type ≠ .array ∧ first.type ≠ .object then .errJson else .ok, o)

/-- `none` stands for a read or a write out of bounds, or for too little fuel. -/
def parseLoop : Nat → St R → Option (Lwjsonr × LwjsonT R)
  | 0, _ => none
  | fuel + 1, s =>
    match s.p with
    | [] => none
    | c :: _ =>
      if c ≠ 0 ∧ inside start len s.p then
        match parseRound start len s with
        | .fault => none
        | .ret r o => some (r, o)
        | .again s => parseLoop fuel s
      else afterLoop s

/-- The code before the loop: the type of `first_token`, and where its contents begin. -/
def parseFirst (p : List UInt8) : Outcome (LwjsonType × List UInt8) := do
  let p ← skipBlank start len p
  let c ← read p
  if c = ch '\x7b' ∨ c = ch '[' then
    let type := if c = ch '\x7b' then LwjsonType.object else .array
    let p ← prvCheckValidCharAfterOpenBracket start len p.tail type
    pure (type, p)
  else .ret .errJson

end

/-- The label `ret`. -/
def atRet (r : Lwjsonr) (o : LwjsonT R) : Lwjsonr × LwjsonT R := (r, if r = .ok then { o with parsed := true } else o)

variable [LwReal R]

def lwjsonInit (tokens : List (Token R)) : LwjsonT R :=
  ⟨tokens.map fun _ => .zero, 0, { Token.zero with type := .object }, false⟩

def lwjsonParseEx (o : LwjsonT R) (jsonData : Option (List UInt8)) (jsonLen : Nat) : Option (Lwjsonr × LwjsonT R) :=
  match jsonData with
  | none => some (.errPar, o)
  | some start =>
    if jsonLen = 0 then some (.errPar, o)
    else
      let o := { o with parsed := false, nextFreeTokenPos := 0, firstToken := .zero }
      match parseFirst start jsonLen start with
      | .fault => none
      | .ret r => some (atRet r o)
      | .ok (type, p) =>
        let o := { o with firstToken := { o.firstToken with type } }
        (parseLoop start jsonLen (start.length + 1) ⟨o, .firstToken, p⟩).map fun (r, o) => atRet r o

def lwjsonParse (o : LwjsonT R) (jsonStr : List UInt8) : Option (Lwjsonr × LwjsonT R) := do
  let len ← strlen jsonStr
  lwjsonParseEx o (some jsonStr) len

end Vedruino.Lwjson
