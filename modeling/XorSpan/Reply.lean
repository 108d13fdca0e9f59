/-
What comes of a request for a single operation on data: its result, or
the first thing that is wrong with it.
-/
import XorSpan.Frame
import XorSpan.Graph.Basic
import XorSpan.Fault

namespace XorSpan

/-- Why a request for a single operation is refused. -/
inductive RequestError where
  | reading (error : ReadError)
  | word (error : WordError)
  | capacity (error : CapacityError)
  | frame (error : FrameError)
  | graph (error : GraphError)
  | fault (fault : Fault)

/-- What a request comes to. -/
abbrev Reply := Except RequestError

namespace Reply

/-- What a datum has, if it is needed and there. -/
def need {α : Type} (r : Except KindError α) : Reply α :=
  r.mapError fun e => .reading (.kind e)

/-- The bytes of a datum, read in some way. -/
def read (r : Reading) (d : Datum) : Reply Bytes := (d.read r).mapError .reading

end Reply

end XorSpan
