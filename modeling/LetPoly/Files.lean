import LetPoly.Text.Quoted

/-!
# Files

What a run needs to know about files: the text of a file that is read, whether a file can
be written at its end, and what is said if it cannot.
-/

namespace LetPoly

/-- Why a file cannot be opened. -/
inductive FileProblem where
  /-- There is none, or no directory to hold it. -/
  | missing
  /-- It is a directory. -/
  | directory
deriving DecidableEq

/-- A file that cannot be opened. -/
structure FileError where
  /-- The reason. -/
  problem : FileProblem
  /-- The name of the file. -/
  path : String
deriving DecidableEq

/-- The wording of a file error. -/
def FileError.message (error : FileError) : String :=
  let reason :=
    match error.problem with
    | .missing => "[Errno 2] No such file or directory: "
    | .directory => "[Errno 21] Is a directory: "
  reason ++ Text.quoted error.path

/-- The files around a run. -/
structure Files where
  /-- The text of a file. -/
  read : String → Except FileProblem String
  /-- What keeps a file from being written at its end. -/
  appendProblem? : String → Option FileProblem

/-- What keeps a file from being read. -/
def Files.readProblem? (files : Files) (path : String) : Option FileProblem :=
  match files.read path with
  | .ok _ => none
  | .error problem => some problem

end LetPoly
