import BatchCompiler.Number.Integer
import BatchCompiler.Settings.Basic
import BatchCompiler.Source.Span
import BatchCompiler.Text.Blank

/-!
# Diagnostics

Errors and warnings anchored at a span, and their text: a headline and, when the place is known, the
source line with a caret under the span.
-/

namespace BatchCompiler

structure SourceFile where
  name : String
  content : List Char

abbrev Sources := List SourceFile

structure Diagnostic where
  span : Span
  message : String
deriving DecidableEq, Repr, Inhabited

structure Remark where
  warning : Warning
  span : Span
  message : String
deriving DecidableEq, Repr, Inhabited

namespace Sources

def file? (files : Sources) (span : Span) : Option SourceFile :=
  if span.file < 0 then none else files[span.file.toNat]?

def fileName (files : Sources) (span : Span) : String :=
  match files.file? span with
  | some f => f.name
  | none => "unknown"

def location (files : Sources) (span : Span) : String :=
  files.fileName span ++ ":" ++ Number.intText span.line ++ ":" ++ Number.intText span.column

end Sources

namespace Diagnostic

/-- Drops `n` lines; the last line is never dropped. -/
def dropLines : (n : Nat) → List Char → List Char
  | 0, cs => cs
  | n + 1, cs => match cs.dropWhile (· != '\n') with
    | [] => cs
    | _ :: rest => dropLines n rest

def lineAt (content : List Char) (line : Int) : List Char :=
  let text := (dropLines (line.toNat - 1) content).takeWhile (· != '\n')
  (text.reverse.dropWhile (· == '\r')).reverse

def excerpt (files : Sources) (span : Span) : String :=
  match files.file? span with
  | none => ""
  | some f =>
    if span.line = 0 then ""
    else
      "  " ++ String.ofList (lineAt f.content span.line) ++ "\n  " ++
        Text.spaces (span.column - 1).toNat ++ "\x1b[32m^" ++
        String.ofList (List.replicate (span.length - 1).toNat '~') ++ "\x1b[0m\n"

/-- One line for a reader: the place, if there is one, and the message. -/
def text (files : Sources) (d : Diagnostic) : String :=
  if d.span.line ≤ 0 then d.message else files.location d.span ++ ": " ++ d.message

def report (files : Sources) (d : Diagnostic) : String :=
  files.location d.span ++ ": \x1b[31merror:\x1b[0m " ++ d.message ++ "\n" ++ excerpt files d.span

end Diagnostic

namespace Remark

def report (files : Sources) (r : Remark) : String :=
  files.location r.span ++ ": \x1b[33mwarning:\x1b[0m " ++ r.message ++ " [-W" ++ r.warning.name ++
    "]\n" ++ Diagnostic.excerpt files r.span

def reportAll (files : Sources) (rs : List Remark) : String :=
  String.join (rs.map (report files))

end Remark

def Settings.remark (s : Settings) (w : Warning) (span : Span) (message : String) : List Remark :=
  if s.warning w then [{ warning := w, span := span, message := message }] else []

end BatchCompiler
