import Pager.Machine

namespace Pager.Machine

def loadSegment (g : Segment) : Step (Machine × PageBytes) Unit := fun s =>
  match g.load (s.1.files.get g.file, s.2) with
  | .ok () (f, b) => .ok () ({ s.1 with files := s.1.files.set g.file f }, b)
  | .error e (f, b) =>
      let m := { s.1 with files := s.1.files.set g.file f }
      match e with
      | .errno e => .error (.errno e) (m, b)
      | .short n => .error (.errno (LoadError.short n).toErrno) (m.emit (.shortRead g n), b)

def runProducer (q : Producer) : Step (Machine × PageBytes) Unit := fun s =>
  let n := s.1.runs.get q.key
  let m := { s.1 with runs := s.1.runs.set q.key (n + 1) }
  match q.run n s.2 with
  | (b, none) => .ok () (m, b)
  | (b, some e) => .error (.errno e) (m, b)

def load : Loader → Step (Machine × PageBytes) Unit
  | .segment g => loadSegment g
  | .producer q => runProducer q

def loadInto (p : PhysPage) : Option Loader → Step Machine Unit
  | none => pure ()
  | some l => inFrame p (load l)

/-- Brings the bytes of a page into a frame, and tells what the page is from
then on. A page that fails to load stays as it was. -/
def fetch (id : PageId) (c : Content) (p : PhysPage) : Step Machine Content :=
  match c with
  | .unloaded .anon loader _ => do
      writeFrame p (Bytes.zero pageSize)
      loadInto p loader
      note (.loaded id.page .anon)
      pure (.anon none)
  | .unloaded .file loader span =>
      match loader.bind Loader.backing? with
      | none => Step.fail .einval
      | some g => do
          writeFrame p (Bytes.zero pageSize)
          inFrame p (loadSegment g)
          note (.loaded id.page .file)
          pure (.file g span false)
  | .anon (some s) => do
      inFrame p (onSwapPage (Swap.takeBack s))
      note (.swapRead s)
      pure (.anon none)
  | .anon none => do
      writeFrame p (Bytes.zero pageSize)
      pure (.anon none)
  | .file g span dirty => do
      inFrame p (loadSegment g)
      pure (.file g span dirty)

end Pager.Machine
