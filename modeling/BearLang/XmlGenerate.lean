import BearLang.Runtime
import BearLang.XmlTrees

/-!
# The generator of markup

`xml_generate.c`. A member of the context `x` is an operator made for the look-up;
it takes the name of its element from the symbol it was called by. Its loops are
numbered in the order of the text, and so are the functions that the runtime calls
by a pointer.
-/

namespace BearLang

open CallPrograms XmlTrees

set_option autoImplicit false

section Generator

/-- `strrchr(s,':')+1`; without a colon it points nowhere. -/
def afterColon (s : CStr) : Option CStr := if chr ':' ∈ s then some (tagName s) else none

def itemsNumber : Nat := 0
def attributesNumber : Nat := 1
def contentNumber : Nat := 2

/-- The clause is a list whose head is the symbol `@`. -/
def isAttributeClause (item : Ptr) : Prog Bool := do
  let c ← load item
  if c.type = .cons then
    let head ← load c.car
    if head.type = .symbol then
      let name ← member head.sVal
      pure (name == text "@")
    else pure false
  else pure false

def xmlItemsLoop (ctx i retList attrList : Ptr) : Prog (List Ptr × CStr) :=
  if i = .null then pure ([retList, attrList], [])
  else do
    let c ← load i
    let isAttribute ← isAttributeClause c.car
    if isAttribute then
      let clause ← load c.car
      let pair ← blEval .operand ctx clause.cdr
      let attrList ← blListAppend attrList pair
      let c ← load i
      call (.extensionLoop itemsNumber [ctx, c.cdr, retList, attrList] [])
    else
      let value ← blEval .operand ctx c.car
      let s ← blSerNakedSexp value
      let str ← mkStr s
      let retList ← blListAppend retList str
      let c ← load i
      call (.extensionLoop itemsNumber [ctx, c.cdr, retList, attrList] [])

def xmlAttributesLoop (i : Ptr) (retval : CStr) : Prog (List Ptr × CStr) :=
  if i = .null then pure ([], retval)
  else do
    let c ← load i
    let pair ← load c.car
    let name ← strOf pair.car
    let rest ← load pair.cdr
    let value ← strOf rest.car
    call (.extensionLoop attributesNumber [c.cdr]
      (retval ++ text " " ++ name ++ text "=\"" ++ value ++ text "\""))

def xmlContentLoop (i : Ptr) (retval : CStr) : Prog (List Ptr × CStr) :=
  if i = .null then pure ([], retval)
  else do
    let c ← load i
    let s ← strOf c.car
    call (.extensionLoop contentNumber [c.cdr] (retval ++ s))

def xmlLoop (number : Nat) (vars : List Ptr) (buf : CStr) : Prog (List Ptr × CStr) :=
  if number = itemsNumber then
    match vars with
    | [ctx, i, retList, attrList] => xmlItemsLoop ctx i retList attrList
    | _ => trap
  else
    match vars with
    | [i] => if number = attributesNumber then xmlAttributesLoop i buf else xmlContentLoop i buf
    | _ => trap

/-- The text of the start tag, or of the whole element. -/
def xmlStart (tagName : CStr) (retList attrList : Ptr) : Prog CStr :=
  if attrList = .null then
    if retList = .null then pure (text "<" ++ tagName ++ text "/>")
    else pure (text "<" ++ tagName ++ text ">")
  else do
    let (_, retval) ← call (.extensionLoop attributesNumber [attrList] (text "<" ++ tagName))
    pure (retval ++ text ">")

def xmlGenOper (ctx params : Ptr) : Prog Ptr := do
  let p ← load params
  let symName ← strOf p.invokedSym
  let tagNameS ← member (afterColon symName)
  let tagName ← mkStr tagNameS
  let n ← blListLen params
  if n = 0 then mkStr (text "<" ++ tagNameS ++ text "/>")
  else
    let (lists, _) ← call (.extensionLoop itemsNumber [ctx, params, .null, .null] [])
    match lists with
    | [retList, attrList] =>
        let name ← strOf tagName
        let retval ← xmlStart name retList attrList
        if retList = .null then mkStr retval
        else
          let (_, retval) ← call (.extensionLoop contentNumber [retList] retval)
          let name ← strOf tagName
          mkStr (retval ++ text "</" ++ name ++ text ">")
    | _ => trap

def xmlGenOperNumber : Nat := 0
def xGetNumber : Nat := 0

def xmlEscape (ctx params : Ptr) : Prog Ptr := do
  let params ← blEval .operand ctx params
  let s ← blListFirst params
  let escaped ← strOf s
  let replaced ← strReplace escaped (text "<") (text "&lt;")
  let escaped ← member replaced
  let replaced ← strReplace escaped (text ">") (text "&gt;")
  let escaped ← member replaced
  mkStr escaped

/-- `bl_mk_native_oper(&xml_gen_oper)` -/
def xGet (_ctx _sym : Ptr) : Prog Ptr :=
  alloc { type := .operNative, w0 := .code (.extension xmlGenOperNumber) }

structure World.HasXml (W : World) : Prop where
  oper : W.oper xmlGenOperNumber = xmlGenOper
  customGet : W.customGet xGetNumber = xGet
  items : W.loop itemsNumber = xmlLoop itemsNumber
  attributes : W.loop attributesNumber = xmlLoop attributesNumber
  content : W.loop contentNumber = xmlLoop contentNumber

def World.xml : World :=
  { World.bare with
    oper := fun _ => xmlGenOper
    customGet := fun _ => xGet
    loop := xmlLoop }

theorem xml_has_xml : World.xml.HasXml where
  oper := rfl
  customGet := rfl
  items := rfl
  attributes := rfl
  content := rfl

end Generator

end BearLang
