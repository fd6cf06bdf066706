import Desugar.Token.Scan

/-! The modules that a text imports, found in its tokens: plain imports, imports with
a `from` clause, calls of `import`, and exports from another module. -/
namespace Desugar.Import

def unquote? : Text → Option Text
  | [] => none
  | q :: cs =>
    if Element.isQuote q && cs.getLast? == some q then some cs.dropLast else none

def target (t : Token) : List Text := (unquote? t.text).toList

/-- The string after the first `from` before the end of the statement, and its index. -/
def fromClause? : List Token → Option (Token × Nat)
  | [] => none
  | t :: ts =>
    match t.kind with
    | .keyword .fromWord =>
      match ts with
      | s :: _ => if s.kind = .string then some (s, 1) else none
      | [] => none
    | .semicolon | .eof | .keyword .importWord | .keyword .exportWord => none
    | _ => (fromClause? ts).map fun r => (r.1, r.2 + 1)

/-- What the tokens after `import` or `export` import, and how many of them need no
further look. -/
def clause (word : Keyword) (tokens : List Token) : List Text × Nat :=
  let byFrom := match fromClause? tokens with
    | some (s, index) => (target s, index + 1)
    | none => ([], 0)
  match word, tokens.head?.map Token.kind with
  | .importWord, some .string => ((tokens.head?.map target).getD [], 0)
  | .importWord, some (.opening .paren) =>
    match tokens with
    | _ :: s :: close :: _ =>
      if s.kind = .string && close.kind = .closing .paren then (target s, 0) else ([], 0)
    | _ => ([], 0)
  | .importWord, some .dot => ([], 0)
  | .importWord, _ => byFrom
  | .exportWord, some .star => byFrom
  | .exportWord, some (.opening .brace) => byFrom
  | _, _ => ([], 0)

/-- Import targets in the tokens after `last`, the first `skip` of which are passed
over. -/
def targets : (last : Option Kind) → (skip : Nat) → List Token → List Text
  | _, _, [] => []
  | _, skip + 1, t :: ts => targets (some t.kind) skip ts
  | last, 0, t :: ts =>
    match t.kind with
    | .keyword word =>
      -- the name of a member
      if last = some .dot then targets (some t.kind) 0 ts
      else
        let (found, skip) := clause word ts
        found ++ targets (some t.kind) skip ts
    | _ => targets (some t.kind) 0 ts

def ofText (markup : Bool) (text : Text) : List Text :=
  targets none 0 (Token.scan markup text).tokens

end Desugar.Import
