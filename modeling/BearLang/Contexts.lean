import BearLang.ListOps

/-!
# Contexts

`ctx.c`: a context holds one slot for each symbol id below its size, and looks
further in its parent. Names that start with a quote or contain `::` are
resolved as quoted symbols and as paths.
-/

namespace BearLang

open CallPrograms

set_option autoImplicit false

/-- The index of the first occurrence. -/
def strstr (needle : CStr) : CStr → Option Nat
  | [] => if needle = [] then some 0 else none
  | c :: rest =>
      if needle.isPrefixOf (c :: rest) then some 0 else (strstr needle rest).map (· + 1)

def loadCtx (p : Ptr) : Prog Ctx := do
  let c ← load p
  member c.asCtx

def Ctx.new (count : Nat) (parent : Ptr) : Ctx :=
  { keys := List.replicate count .null
    vals := List.replicate count .null
    valsCount := count
    parent := parent
    ctxGet := none
    writeToParent := false }

def Cell.mkCtx (c : Ctx) : Cell := { type := .ctx, w1 := .raw, tail := .ctx c }

def blCtxNew (parent : Ptr) : Prog Ptr :=
  if parent = .null then alloc (.mkCtx (.new 8 parent))
  else do
    let p ← loadCtx parent
    alloc (.mkCtx (.new p.valsCount parent))

/-- `bl_ctx_get` once the name is neither quoted nor a path. -/
def ctxLookup (c : Ctx) (ctx key : Ptr) (id : Nat) : Prog Ptr := do
  let retval ← if id < c.valsCount then ctxVal ctx id else pure .null
  if retval ≠ .null then pure retval
  else if c.parent ≠ .null then blCtxGet c.parent key
  else pure .null

def ctxGetBody (ctx key : Ptr) : Prog Ptr :=
  if key = .null then blMkErr .internal
  else do
    let c ← loadCtx ctx
    match c.ctxGet with
    | some number => call (.customGet number ctx key)
    | none =>
        let k ← load key
        if k.type ≠ .symbol then blMkErr .internal
        else
          let name ← member k.sVal
          if name.head? = some (chr '\'') then mkSymbol name.tail
          else
            match strstr (text "::") name with
            | some i =>
                let ctxKey ← mkSymbol (name.take i)
                let other ← blCtxGet ctx ctxKey
                if other = .null then pure .null
                else
                  let symKey ← mkSymbol (name.drop (i + 2))
                  blCtxGet other symKey
            | none =>
                let id ← member k.symId
                ctxLookup c ctx key id

def blCtxSet (ctx key val : Ptr) : Prog Ptr := do
  let c ← loadCtx ctx
  let ctx := if c.writeToParent then c.parent else ctx
  let k ← load key
  let id ← member k.symId
  ctxStore ctx id key val
  pure val

end BearLang
