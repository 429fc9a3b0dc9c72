import BearLang.Contexts

/-!
# The reader

`read_form` and `read_list` of `sexp.c`, and the decoding of token texts. The
end of the input is a null pointer and a closing parenthesis the value
`end_list_val`; both come back through `read_form`.
-/

namespace BearLang

open CallPrograms

set_option autoImplicit false

/-- `unescape`, started with whatever `slash` holds. -/
def unescape (slash : Bool) : CStr → CStr
  | [] => []
  | c :: rest =>
      if c = backslash then unescape true rest
      else if c = chr 'n' ∧ slash = true then newline :: unescape false rest
      else if c = chr 't' ∧ slash = true then 9 :: unescape false rest
      else c :: unescape slash rest

def decimalValue (digits : CStr) : Nat :=
  digits.foldl (fun value c => 10 * value + (c.toNat - (chr '0').toNat)) 0

/-- `mpz_set_str` in base 10; a string that is no number leaves 0. -/
def mpzSetStr (s : CStr) : Int :=
  match s with
  | [] => 0
  | c :: rest =>
      if c = chr '-' then
        if rest ≠ [] ∧ rest.all isDigit then -(decimalValue rest : Int) else 0
      else if s.all isDigit then (decimalValue s : Int) else 0

def blMkInteger (s : CStr) : Prog Ptr := alloc (.mkNumber (mpzSetStr s))

def readListLoop (sc : Scanner) (L : Ptr) : Prog Scanner := do
  let (e, sc) ← call (.readForm sc)
  if e = .null then pure sc
  else
    let t ← typeOf e
    if t = .listEnd then pure sc
    else
      let new ← alloc (.mkCons e .null)
      setCdr .build L new
      call (.readListLoop sc new)

/-- `read_list`; the first cell is allocated when its `car` is known. -/
def readList (sc : Scanner) : Prog (Ptr × Scanner) := do
  let (car, sc) ← call (.readForm sc)
  if car = .null then
    let retval ← alloc (.mkCons .null .null)
    pure (retval, sc)
  else
    let t ← typeOf car
    if t = .listEnd then
      let retval ← alloc (.mkCons .null .null)
      pure (retval, sc)
    else
      let retval ← alloc (.mkCons car .null)
      let sc ← call (.readListLoop sc retval)
      pure (retval, sc)

/-- The value of one token; a left parenthesis reads on to its list. -/
def readToken (slash : Bool) (token : TokenType) (sc : Scanner) : Prog (Ptr × Scanner) :=
  match token with
  | .string => do
      let retval ← mkStr (unescape slash sc.yytext)
      pure (retval, sc)
  | .lparen => readList sc
  | .rparen => pure (endListVal, sc)
  | .integer => do
      let retval ← blMkInteger sc.yytext
      pure (retval, sc)
  | .symbol => do
      let retval ← mkSymbol sc.yytext
      pure (retval, sc)
  | .ifToken => pure (ifOperVal, sc)
  | .doToken => pure (doOperVal, sc)
  | .whileToken => pure (whileOperVal, sc)
  | .docstring => do
      let retval ← alloc (.mkDocstr sc.yytext)
      pure (retval, sc)

def readFormBody (slash : Bool) (sc : Scanner) : Prog (Ptr × Scanner) :=
  match yylex sc with
  | (none, sc) => pure (.null, sc)
  | (some token, sc) => do
      let (retval, sc) ← readToken slash token sc
      setLine retval sc.lineno
      pure (retval, sc)

def blParseSexp (sexp : CStr) : Prog Ptr := do
  let (retval, _) ← call (.readForm (scannerOf sexp))
  pure (if retval = .null then nullVal else retval)

def blParseFile (contents : CStr) : Prog Ptr := do
  let (retval, _) ← readList (scannerOf contents)
  pure retval

end BearLang
