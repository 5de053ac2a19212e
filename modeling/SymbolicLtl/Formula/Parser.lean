import SymbolicLtl.Formula.Token

/-!
Reading formulas. From the loosest to the tightest binding the connectives are `<->`, `->`, `|`,
`^`, `&`; implication associates to the right and all others to the left.
-/
namespace SymbolicLtl.Formula

/-- A formula read from the front of a list of tokens, and the tokens behind it. -/
structure Parsed (bound : Nat) where
  formula : Formula
  rest : List Token
  shorter : rest.length < bound

/-- A position in the text and what is wrong there. -/
abbrev Fault := Nat × SyntaxFault

/-- The first token; behind the last one there is nothing to read. -/
def peek (tokens : List Token) : Token := tokens.headD ⟨.finish, "", 0⟩

def unexpectedToken (t : Token) : Fault :=
  match t.kind with
  | .finish => (t.pos, .unexpectedEnd)
  | _ => (t.pos, .unexpected t.text)

def notClosed (t : Token) : Fault := (t.pos, .expectedClosing t.text)

def notVariable (t : Token) : Fault := (t.pos, .expectedVariable t.text)

mutual

/-- Reads a formula whose connectives outside of parentheses belong to the given layer or to a
lower one. -/
def parseLayer (layer : Nat) (tokens : List Token) : Except Fault (Parsed tokens.length) :=
  match layer, tokens with
  | layer + 1, tokens => do
    let ⟨left, rest, h⟩ ← parseLayer layer tokens
    let ⟨f, rest', h'⟩ ← parseTail layer left rest
    return ⟨f, rest', by omega⟩
  | 0, ⟨.bang, _, _⟩ :: rest => do
    let ⟨arg, rest', h⟩ ← parseLayer 0 rest
    return ⟨.not arg, rest', by simp; omega⟩
  | 0, ⟨.truth v, _, _⟩ :: rest => return ⟨.const v, rest, by simp⟩
  | 0, ⟨.name, x, _⟩ :: ⟨.lparen, t, p⟩ :: rest =>
    if x = "next" then
      match rest with
      | ⟨.name, y, _⟩ :: ⟨.rparen, _, _⟩ :: rest => return ⟨.next y, rest, by simp; omega⟩
      | ⟨.name, _, _⟩ :: rest => throw (notClosed (peek rest))
      | rest => throw (notVariable (peek rest))
    else return ⟨.ident x, ⟨.lparen, t, p⟩ :: rest, by simp⟩
  | 0, ⟨.name, x, _⟩ :: rest => return ⟨.ident x, rest, by simp⟩
  | 0, ⟨.lparen, _, _⟩ :: rest => do
    let ⟨f, rest', h⟩ ← parseLayer 5 rest
    match rest', h with
    | ⟨.rparen, _, _⟩ :: rest'', h => return ⟨f, rest'', by simp at h ⊢; omega⟩
    | rest', _ => throw (notClosed (peek rest'))
  | 0, tokens => throw (unexpectedToken (peek tokens))
termination_by (tokens.length, layer)

/-- Reads the connectives of layer `layer + 1` that follow the operand `left`, with their right
operands. -/
def parseTail (layer : Nat) (left : Formula) (tokens : List Token) :
    Except Fault (Parsed (tokens.length + 1)) :=
  match tokens with
  | ⟨.connective op, t, p⟩ :: rest =>
    if op.layer = layer + 1 then
      if op = .imp then do
        let ⟨right, rest', h⟩ ← parseLayer (layer + 1) rest
        return ⟨.binary op left right, rest', by simp; omega⟩
      else do
        let ⟨right, rest', h⟩ ← parseLayer layer rest
        let ⟨f, rest'', h'⟩ ← parseTail layer (.binary op left right) rest'
        return ⟨f, rest'', by simp; omega⟩
    else return ⟨left, ⟨.connective op, t, p⟩ :: rest, by simp⟩
  | tokens => return ⟨left, tokens, by simp⟩
termination_by (tokens.length, 0)

end

def parseTokens (tokens : List Token) : Except Fault Formula := do
  let ⟨f, rest, _⟩ ← parseLayer 5 tokens
  match (peek rest).kind with
  | .finish => return f
  | _ => throw ((peek rest).pos, .unexpected (peek rest).text)

def parse (input : String) : Except SyntaxError Formula :=
  match Token.scan 0 input.toList >>= parseTokens with
  | .ok f => .ok f
  | .error (pos, fault) => .error ⟨input, pos, fault⟩

end SymbolicLtl.Formula
