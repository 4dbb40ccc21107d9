import CircuitForms.Command.FileTree
import CircuitForms.Command.Host

/-! # Sessions

A host that keeps its files and all that is printed in memory.
-/

namespace CircuitForms.Command

/-- The files and what was printed so far, or written to where complaints go. -/
structure Session where
  files : FileTree := []
  output : String := ""
  complaints : String := ""
  deriving DecidableEq, Repr

namespace Session

/-- What is found under a path. -/
def look (files : FileTree) (path : String) : Found :=
  if files.holds path then
    match files.read path with
    | .ok text => .text text
    | .error fault => .unreadable fault.message
  else .missing

/-- The session with a text at a place. -/
def put (s : Session) (place : List String) (text : String) : Except FileTree.Fault Session :=
  if place = FileTree.output then .ok { s with output := s.output ++ text }
  else if place = FileTree.complaints then .ok { s with complaints := s.complaints ++ text }
  else (s.files.put place text).map fun files => { s with files }

def printLine (s : Session) (line : String) : Session :=
  { s with output := s.output ++ line ++ "\n" }

/-- The time in front of a remark. The clock of a session stands still. -/
def stamp : String := "1970-01-01T00:00:00Z "

def host : Host (StateM Session) where
  read path := do return look (← get).files path
  write path text := do
    let s ← get
    match s.files.target path >>= (s.put · text) with
    | .ok s => set s; return none
    | .error fault => return some fault.message
  print line := modify (·.printLine line)
  remark r := modify (·.printLine (stamp ++ r.line))

end Session

end CircuitForms.Command
