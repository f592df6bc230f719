import BatchCompiler.Script.Render
import Mathlib.Data.List.Basic

/-!
# Templates of lines

The first line of a statement as a template: fixed texts, places that are written to and places that
are read, in the order in which they are drafted.
-/

namespace BatchCompiler.Script

open Target Text

inductive LineItem where
  | text (t : String)
  | written (p : Place)
  | read (p : Place)

def LineItem.draft : LineItem → Draft String
  | .text t => pure t
  | .written p => writtenName p
  | .read p => readText p

def draftItems : List LineItem → Draft String
  | [] => pure ""
  | i :: rest => do
    let t ← i.draft
    let more ← draftItems rest
    pure (t ++ more)

def arithItems : Arith → List LineItem
  | .absent => []
  | .int v => [.text (Number.intText v.toInt)]
  | .read p => [.read p]
  | .unary op e => .text (opText op) :: arithItems e
  | .binary op l r =>
    .text "(" :: arithItems l ++ .text (" " ++ opText op ++ " ") :: arithItems r ++ [.text ")"]

def fragmentItems (literal : String → String) (fs : List Fragment) : List LineItem :=
  fs.flatMap fun
    | .absent => []
    | .text s => [.text (literal s)]
    | .read p => [.read p]

def conditionItems (c : Comparison) : List LineItem :=
  match c.op with
  | .eq => .text "\"" :: fragmentItems quotedText c.left ++
      .text "\"==\"" :: fragmentItems quotedText c.right ++ [.text "\""]
  | .ne => .text "not \"" :: fragmentItems quotedText c.left ++
      .text "\"==\"" :: fragmentItems quotedText c.right ++ [.text "\""]
  | op => fragmentItems unquotedText c.left ++
      .text (" " ++ relation op ++ " ") :: fragmentItems unquotedText c.right

def argumentItems (items : List Fragment → List LineItem) (args : List (List Fragment)) :
    List LineItem :=
  args.flatMap fun a => .text " " :: items a

def callItems (callee : Fragment) (args : List (List Fragment)) : List LineItem :=
  fragmentItems unquotedText [callee] ++ argumentItems (fragmentItems unquotedText) args

def quotedItems (fs : List Fragment) : List LineItem :=
  .text "\"" :: fragmentItems quotedText fs ++ [.text "\""]

def headItems : Stmt → List LineItem
  | .absent => []
  | .raw t => [.text t]
  | .comment t => [.text ("rem " ++ doublePercent t)]
  | .label n => [.text (":" ++ n)]
  | .jump t => [.text ("goto :" ++ t)]
  | .setText dst value =>
    .text "set \"" :: .written dst :: .text "=" :: fragmentItems quotedText value ++ [.text "\""]
  | .setNumber dst e =>
    .text "set /a \"" :: .written dst :: .text "=" :: arithItems e ++ [.text "\""]
  | .call (.text s) args =>
    if startsWith ":" s then .text ("call " ++ s) :: argumentItems quotedItems args
    else callItems (.text s) args
  | .call callee args => callItems callee args
  | .whenTrue c _ | .choose c _ _ => .text "if " :: conditionItems c ++ [.text " ("]

theorem draftItems_append (a b : List LineItem) : draftItems (a ++ b) = (do
    let s ← draftItems a
    let t ← draftItems b
    pure (s ++ t)) := by
  induction a with
  | nil => simp only [List.nil_append, draftItems, pure_bind, String.empty_append, bind_pure]
  | cons i rest ih =>
    simp only [List.cons_append, draftItems, ih, bind_assoc, pure_bind, String.append_assoc]

theorem draftItems_nil : draftItems [] = pure "" := rfl

theorem draftItems_text_cons (t : String) (rest : List LineItem) :
    draftItems (.text t :: rest) = (do
      let more ← draftItems rest
      pure (t ++ more)) := rfl

theorem draftItems_written_cons (p : Place) (rest : List LineItem) :
    draftItems (.written p :: rest) = (do
      let name ← writtenName p
      let more ← draftItems rest
      pure (name ++ more)) := rfl

theorem draftItems_read (p : Place) : draftItems [.read p] = readText p := by
  simp only [draftItems, LineItem.draft, pure_bind, String.append_empty, bind_pure]

theorem arithText_eq (e : Arith) : arithText e = draftItems (arithItems e) := by
  induction e with
  | absent => rfl
  | int v =>
    simp only [arithText, arithItems, draftItems_text_cons, draftItems_nil, pure_bind,
      String.append_empty]
  | read p => exact (draftItems_read p).symm
  | unary op e ih => rw [arithText, arithItems, draftItems_text_cons, ih]
  | binary op l r ihl ihr =>
    simp only [arithText, arithItems, draftItems_text_cons, draftItems_append, draftItems_nil,
      List.cons_append, ihl, ihr, bind_assoc, pure_bind, String.append_assoc, String.append_empty]

theorem fragmentText_eq (literal : String → String) (f : Fragment) :
    fragmentText literal f = draftItems (fragmentItems literal [f]) := by
  cases f with
  | absent => rfl
  | text s =>
    simp only [fragmentText, fragmentItems, List.flatMap_cons, List.flatMap_nil, List.append_nil,
      draftItems_text_cons, draftItems_nil, pure_bind, String.append_empty]
  | read p => exact (draftItems_read p).symm

theorem fragmentsText_eq (literal : String → String) (fs : List Fragment) :
    fragmentsText literal fs = draftItems (fragmentItems literal fs) := by
  induction fs with
  | nil => rfl
  | cons f rest ih =>
    have hItems : fragmentItems literal (f :: rest) =
        fragmentItems literal [f] ++ fragmentItems literal rest := by
      rw [fragmentItems, List.flatMap_cons, fragmentItems, List.flatMap_singleton]
      rfl
    rw [fragmentsText, fragmentText_eq, ih, hItems, draftItems_append]

theorem inQuotes_eq (fs : List Fragment) : inQuotes fs = draftItems (quotedItems fs) := by
  simp only [inQuotes, quoted, fragmentsText_eq, quotedItems, draftItems_text_cons,
    draftItems_append, draftItems_nil, List.cons_append, bind_assoc, pure_bind, String.append_assoc,
    String.append_empty]

theorem conditionText_eq (c : Comparison) : conditionText c = draftItems (conditionItems c) := by
  obtain ⟨op, left, right⟩ := c
  cases op <;>
    simp only [conditionText, conditionItems, quoted, unquoted, fragmentsText_eq,
      draftItems_text_cons, draftItems_append, draftItems_nil, List.cons_append, bind_assoc,
      pure_bind, String.append_assoc, String.append_empty]

theorem argumentTexts_eq {draft : List Fragment → Draft String}
    {items : List Fragment → List LineItem} (h : ∀ fs, draft fs = draftItems (items fs))
    (first : String) (args : List (List Fragment)) : (do
      let ts ← argumentTexts draft args
      pure (" ".intercalate (first :: ts))) = (do
      let more ← draftItems (argumentItems items args)
      pure (first ++ more)) := by
  induction args generalizing first with
  | nil =>
    simp only [argumentTexts, argumentItems, List.flatMap_nil, draftItems_nil, pure_bind,
      String.intercalate_singleton, String.append_empty]
  | cons a rest ih =>
    have hRest : ∀ t : String, (do
        let ts ← argumentTexts draft rest
        pure (first ++ (" " ++ " ".intercalate (t :: ts)))) = (do
        let more ← draftItems (argumentItems items rest)
        pure (first ++ (" " ++ (t ++ more)))) := by
      intro t
      have hMore := congrArg (fun m : Draft String => m >>= fun x => pure (first ++ (" " ++ x))) (ih t)
      simpa only [bind_assoc, pure_bind] using hMore
    have hItems : argumentItems items (a :: rest) =
        .text " " :: (items a ++ argumentItems items rest) := rfl
    simp only [argumentTexts, hItems, draftItems_text_cons, draftItems_append, bind_assoc, pure_bind,
      String.intercalate_cons_cons, String.append_assoc, hRest, h]

theorem callText_eq (callee : Fragment) (args : List (List Fragment)) :
    callText callee args = draftItems (callItems callee args) := by
  have hArgs := argumentTexts_eq (fragmentsText_eq unquotedText)
  simp only [callText, callItems, unquoted, fragmentsText_eq, draftItems_append]
  exact bind_congr fun command => hArgs command args

theorem labelCallText_eq (label : String) (args : List (List Fragment)) :
    labelCallText label args =
      draftItems (.text ("call " ++ label) :: argumentItems quotedItems args) := by
  have hCall : ∀ ts, " ".intercalate ("call" :: label :: ts) =
      " ".intercalate (("call " ++ label) :: ts) := by
    intro ts
    rw [String.intercalate_cons_cons, String.intercalate_cons_append]
    rfl
  simp only [labelCallText, hCall, draftItems_text_cons]
  exact argumentTexts_eq inQuotes_eq _ args

theorem headText_eq (s : Stmt) : headText s = draftItems (headItems s) := by
  have hText : ∀ t : String, pure t = draftItems [.text t] := by
    intro t
    simp only [draftItems_text_cons, draftItems_nil, pure_bind, String.append_empty]
  cases s with
  | absent => rfl
  | raw t | comment t | label t | jump t => exact hText _
  | setText dst value =>
    simp only [headText, headItems, quoted, fragmentsText_eq, draftItems_text_cons,
      draftItems_written_cons, draftItems_append, draftItems_nil, List.cons_append, bind_assoc,
      pure_bind, String.append_assoc, String.append_empty]
  | setNumber dst e =>
    simp only [headText, headItems, arithText_eq, draftItems_text_cons,
      draftItems_written_cons, draftItems_append, draftItems_nil, List.cons_append, bind_assoc,
      pure_bind, String.append_assoc, String.append_empty]
  | call callee args =>
    cases callee with
    | text s =>
      rw [headText, headItems]
      split
      · exact labelCallText_eq s args
      · exact callText_eq (.text s) args
    | absent => exact callText_eq .absent args
    | read p => exact callText_eq (.read p) args
  | whenTrue c body | choose c thenBody elseBody =>
    simp only [headText, headItems, conditionText_eq, draftItems_text_cons, draftItems_append,
      draftItems_nil, List.cons_append, bind_assoc, pure_bind, String.append_assoc,
      String.append_empty]

/-! ## Templates with their literals -/

inductive LineSpan where
  | item (i : LineItem)
  | literal (inQuotes : Bool) (text : String)

namespace LineSpan

def toItem : LineSpan → LineItem
  | .item i => i
  | .literal true t => .text (quotedText t)
  | .literal false t => .text (unquotedText t)

end LineSpan

def codeSpan (t : String) : LineSpan := .item (.text t)

def fragmentSpans (inQuotes : Bool) (fs : List Fragment) : List LineSpan :=
  fs.flatMap fun
    | .absent => []
    | .text s => [.literal inQuotes s]
    | .read p => [.item (.read p)]

def quotedSpans (fs : List Fragment) : List LineSpan :=
  codeSpan "\"" :: fragmentSpans true fs ++ [codeSpan "\""]

def conditionSpans (c : Comparison) : List LineSpan :=
  match c.op with
  | .eq => codeSpan "\"" :: fragmentSpans true c.left ++
      codeSpan "\"==\"" :: fragmentSpans true c.right ++ [codeSpan "\""]
  | .ne => codeSpan "not \"" :: fragmentSpans true c.left ++
      codeSpan "\"==\"" :: fragmentSpans true c.right ++ [codeSpan "\""]
  | op => fragmentSpans false c.left ++
      codeSpan (" " ++ relation op ++ " ") :: fragmentSpans false c.right

def headSpans : Stmt → List LineSpan
  | .setText dst value =>
    codeSpan "set \"" :: .item (.written dst) :: codeSpan "=" :: fragmentSpans true value ++
      [codeSpan "\""]
  | .call (.text s) args =>
    if startsWith ":" s then
      codeSpan ("call " ++ s) :: args.flatMap fun a => codeSpan " " :: quotedSpans a
    else codeSpan (unquotedText s) :: args.flatMap fun a => codeSpan " " :: fragmentSpans false a
  | .whenTrue c _ | .choose c _ _ => codeSpan "if " :: conditionSpans c ++ [codeSpan " ("]
  | s => (headItems s).map .item

theorem map_fragmentSpans (inQuotes : Bool) (fs : List Fragment) :
    (fragmentSpans inQuotes fs).map LineSpan.toItem =
      fragmentItems (if inQuotes then quotedText else unquotedText) fs := by
  rw [fragmentSpans, fragmentItems, List.map_flatMap]
  refine List.flatMap_congr fun f _ => ?_
  cases f <;> cases inQuotes <;> rfl

theorem map_headSpans (s : Stmt) : (headSpans s).map LineSpan.toItem = headItems s := by
  have hCode : ∀ t, (codeSpan t).toItem = .text t := fun _ => rfl
  have hItem : ∀ i, (LineSpan.item i).toItem = i := fun _ => rfl
  have hItems : ∀ items : List LineItem, (items.map LineSpan.item).map LineSpan.toItem = items := by
    intro items
    rw [List.map_map]
    exact List.map_id _
  have hCondition : ∀ c, (conditionSpans c).map LineSpan.toItem = conditionItems c := by
    rintro ⟨op, left, right⟩
    cases op <;> simp [conditionSpans, conditionItems, map_fragmentSpans, hCode]
  have hArgs : ∀ (spans : List Fragment → List LineSpan) (items : List Fragment → List LineItem),
      (∀ a, (spans a).map LineSpan.toItem = items a) → ∀ args : List (List Fragment),
      (args.flatMap fun a => codeSpan " " :: spans a).map LineSpan.toItem =
        argumentItems items args := by
    intro spans items h args
    rw [argumentItems, List.map_flatMap]
    refine List.flatMap_congr fun a _ => ?_
    rw [List.map_cons, h, hCode]
  have hQuoted : ∀ a, (quotedSpans a).map LineSpan.toItem = quotedItems a := by
    intro a
    simp [quotedSpans, quotedItems, map_fragmentSpans, hCode]
  cases s with
  | setText dst value => simp [headSpans, headItems, map_fragmentSpans, hCode, hItem]
  | call callee args =>
    cases callee with
    | text t =>
      rw [headSpans, headItems]
      split
      · rw [List.map_cons, hCode, hArgs _ _ hQuoted]
      · rw [List.map_cons, hCode, hArgs _ _ (map_fragmentSpans false)]
        rfl
    | _ => exact hItems _
  | whenTrue c body | choose c thenBody elseBody =>
    simp [headSpans, headItems, hCondition, hCode]
  | _ => exact hItems _

end BatchCompiler.Script
