import RenderGraph.Stream.Reader
/-!
# Walking a stream record by record

`Stream.walk` opens a stream and reads records until the first failure or the end record, and
then tries a given number of further reads, which all fail. It is the raw view of a stream,
without any meaning attached to the records: what a tool that inspects streams shows.

Every successful read consumes at least the sixteen bytes of a record's framing, so a stream of
`n` bytes has fewer than `n` records and the walk's fuel of `n + 1` reads never runs out first.
-/

namespace RenderGraph.Stream

/-- What one read of the walk gave. -/
inductive WalkStep where
  /-- A record with its tag, whether the stream was finished after it, and the outcome of reading
  its payload as the payload of another tag, when one was asked for. -/
  | record (tag : Tag) (finished : Bool) (payloadCheck : Option (Except Error Unit))
  /-- A read that failed. -/
  | failure (error : Error)

/-- The reads of a walk and whether the stream was finished at its end. -/
structure Walk where
  steps : List WalkStep
  finished : Bool

/-- Checks that a record's payload has the size of another tag's payload. The end record has no
payload type, so a check against it always passes. -/
def payloadCheck (r : Record) (asTag : Tag) : Except Error Unit :=
  if asTag = .end then .ok ()
  else if r.payload.length = asTag.payloadSize then .ok ()
  else .error (.payloadSize r.tag asTag.payloadSize r.payload.length)

/-- The failures of `k` reads after the end record. -/
def readsAfterEnd (r : Reader) : Nat → List WalkStep
  | 0 => []
  | k + 1 =>
    match r.next with
    | .error e => .failure e :: readsAfterEnd r k
    | .ok (rec, r') =>
      .record rec.tag r'.ended none :: readsAfterEnd r' k

/-- Reads records with at most `fuel` reads before the end record. -/
def walkFrom (asTag : Option Tag) (extra : Nat) : Nat → Reader → Walk
  | 0, r => ⟨[], r.ended⟩
  | fuel + 1, r =>
    match r.next with
    | .error e => ⟨[.failure e], r.ended || e.finishesStream⟩
    | .ok (rec, r') =>
      let step := WalkStep.record rec.tag r'.ended (asTag.map (payloadCheck rec))
      if r'.ended then ⟨step :: readsAfterEnd r' extra, true⟩
      else
        let w := walkFrom asTag extra fuel r'
        ⟨step :: w.steps, w.finished⟩

/-- Opens a stream and walks it. A broken header fails the whole walk. -/
def walk (bytes : Bytes) (magic : List UInt8) (asTag : Option Tag) (extra : Nat) :
    Except Error Walk := do
  let r ← Reader.start bytes magic
  pure (walkFrom asTag extra (bytes.length + 1) r)

end RenderGraph.Stream
