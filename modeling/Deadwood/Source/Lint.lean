import Deadwood.Source.Lowering

/-!
# Findings in source functions

A value that is computed and never used is reported where its instruction stands in the source text,
with the instruction as it is printed. Functions that do not stand there, and instructions that
stand nowhere, are passed over.
-/

namespace Deadwood.Source

/-- Something to report. -/
structure Finding where
  pos : Int
  message : String
deriving DecidableEq, Repr

/-- What to report of a dead instruction. -/
def Instr.finding? (i : Instr) : Option Finding :=
  if i.pos = 0 then none else some ⟨i.pos, "result is never used: " ++ i.text⟩

end Deadwood.Source

namespace Deadwood.Session

open Source

/-- The findings in a function. -/
def lint (s : Session) (fn : Source.Func) : Except Fault (List Finding) × Session :=
  if fn.synthetic ≠ "" then (.ok [], s)
  else
    let ((_, dead), next) := s.findDead [] fn.lower
    (dead.map fun sites => sites.filterMap fun site => (fn.instr? site).bind Source.Instr.finding?,
      next)

/-- The findings in a list of functions, up to the first on which the elimination fails. -/
def lintAll (s : Session) : List Source.Func → Except Fault (List Finding) × Session
  | [] => (.ok [], s)
  | fn :: rest =>
    match s.lint fn with
    | (.error f, next) => (.error f, next)
    | (.ok found, next) =>
      let (more, last) := next.lintAll rest
      (more.map (found ++ ·), last)

end Deadwood.Session
