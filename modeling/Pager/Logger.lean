namespace Pager

inductive Level
  | error
  | warn
  | info
  | debug
  | trace
deriving DecidableEq, Inhabited

namespace Level

def all : List Level := [error, warn, info, debug, trace]

def rank : Level → Nat
  | error => 1
  | warn => 2
  | info => 3
  | debug => 4
  | trace => 5

def name : Level → String
  | error => "ERROR"
  | warn => "WARN"
  | info => "INFO"
  | debug => "DEBUG"
  | trace => "TRACE"

def ofName? (s : String) : Option Level := all.find? (fun l => l.name == s)

def colour : Level → String
  | error => "\x1b[31m"
  | warn => "\x1b[93m"
  | info => "\x1b[34m"
  | debug => "\x1b[32m"
  | trace => "\x1b[90m"

end Level

abbrev Filter := Option Level

namespace Filter

def rank (f : Filter) : Nat := (f.map Level.rank).getD 0

def allows (f : Filter) (l : Level) : Bool := l.rank ≤ f.rank

def name (f : Filter) : String := (f.map Level.name).getD "OFF"

def max (f g : Filter) : Filter := if f.rank < g.rank then g else f

/-- A setting names a level in upper case; anything else turns logging off. -/
def ofSetting (s : Option String) : Filter := s.bind Level.ofName?

end Filter

structure Output where
  console : String := ""
  file : String := ""
deriving DecidableEq, Inhabited

def Output.append (a b : Output) : Output := ⟨a.console ++ b.console, a.file ++ b.file⟩

structure Logger where
  console : Filter
  file : Filter
  hasFile : Bool := true
deriving DecidableEq

namespace Logger

def maxLevel (g : Logger) : Filter := Filter.max g.console g.file

def enabled (g : Logger) (l : Level) : Bool := Filter.allows g.maxLevel l

def tag (l : Level) : String := "[" ++ "".pushn ' ' (5 - l.name.length) ++ l.name ++ "] "

def write (g : Logger) (l : Level) (text : String) : Output where
  console :=
    if Filter.allows g.console l then l.colour ++ tag l ++ text ++ "\x1b[0m\n" else ""
  file := if g.hasFile && Filter.allows g.file l then tag l ++ text ++ "\n" else ""

def submit (g : Logger) (l : Level) (text : String) : Output :=
  if g.enabled l then g.write l text else {}

/-- Only the first logger set up is ever used. -/
def setUp (current : Option Logger) (next : Logger) : Option Logger := current <|> some next

end Logger

end Pager
