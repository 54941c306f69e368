import Pager.Loader

namespace Pager

structure FrameId where
  index : Nat
deriving DecidableEq, Inhabited

def FrameId.describe (f : FrameId) : String := s!"FrameId({f.index})"

/-- What a page is for once it is loaded: private memory, which leaves for the
swap area, or a window on a file, which leaves for the file. -/
inductive Kind
  | anon
  | file
deriving DecidableEq, Inhabited

inductive PageType
  | uninit
  | anon
  | file
  | pageCache
deriving DecidableEq, Inhabited

namespace PageType

def name : PageType → String
  | uninit => "Uninit"
  | anon => "Anon"
  | file => "File"
  | pageCache => "PageCache"

def all : List PageType := [uninit, anon, file, pageCache]

def ofName? (s : String) : Option PageType := all.find? (fun t => t.name == s)

end PageType

def Kind.type : Kind → PageType
  | anon => .anon
  | file => .file

/-- Where the bytes of a page come from when it is in no frame. A page of a file
has a mark for changes that a failed write left behind when its mapping was gone
already. `span` is the length of the mapping that the page heads, if it heads
one. -/
inductive Content
  | unloaded (kind : Kind) (loader : Option Loader) (span : Nat)
  | anon (slot : Option Slot)
  | file (segment : Segment) (span : Nat) (dirty : Bool)

structure Page where
  writable : Bool
  frame? : Option FrameId := none
  content : Content

namespace Page

abbrev unloaded (writable : Bool) (kind : Kind) (loader : Option Loader) (span : Nat) : Page :=
  { writable := writable, content := .unloaded kind loader span }

def slot? (p : Page) : Option Slot :=
  match p.content with
  | .anon slot => slot
  | _ => none

def span (p : Page) : Nat :=
  match p.content with
  | .unloaded _ _ n => n
  | .anon _ => 0
  | .file _ n _ => n

def kind (p : Page) : Kind :=
  match p.content with
  | .unloaded k _ _ => k
  | .anon _ => .anon
  | .file _ _ _ => .file

def loaded (p : Page) : Bool :=
  match p.content with
  | .unloaded _ _ _ => false
  | _ => true

def type (p : Page) : PageType := p.kind.type

def currentType (p : Page) : PageType := if p.loaded then p.kind.type else .uninit

def canHead (p : Page) : Bool :=
  match p.content with
  | .anon _ => false
  | _ => true

def resident (p : Page) : Bool := p.frame?.isSome

end Page

end Pager
