import BatchCompiler.Text.Utf8

/-!
# File access

What a command needs from the machine it runs on, for any monad that provides it.
-/

namespace BatchCompiler.Files

inductive Reason where
  | notFound
  | isDirectory
  | notDirectory
  | other (text : String)
deriving DecidableEq, Repr

def Reason.text : Reason → String
  | .notFound => "no such file or directory"
  | .isDirectory => "is a directory"
  | .notDirectory => "not a directory"
  | .other text => text

structure FileError where
  action : String
  path : String
  reason : Reason
deriving DecidableEq, Repr

def FileError.message (e : FileError) : String :=
  e.action ++ " " ++ e.path ++ ": " ++ e.reason.text

inductive Kind where
  | regular
  | directory
deriving DecidableEq, Repr

structure Host (m : Type → Type) where
  read : String → m (Except FileError Bytes)
  write : String → Bytes → m (Except FileError Unit)
  remove : String → m Unit
  makeDirectories : String → m (Except FileError Unit)
  kind? : String → m (Option Kind)
  /-- The names in a directory. -/
  names : String → m (List String)
  workingDirectory : m String

end BatchCompiler.Files
