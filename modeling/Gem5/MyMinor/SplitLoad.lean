import Gem5.MyMinor.LSQErrors

/-!
# `Gem5.MyMinor.SplitLoad`: the responses of one split load

A split load from its translation on. The LSQ sends its fragments in order (`getHeadPacket`,
`stepToNextPacket`), and the memory system answers them in any order, with data or with an error
(`retireResponse`). `hasError` says that `copyError` has put an error into the packet of the whole
request. `overran` says that a response was copied past the end of the data of the request, where
the behaviour of the source is undefined. `retired` records the responses, the last one first, with
their fragments. No function of the source reads the last two.
-/

namespace Gem5.MyMinor

/-- The copy of a response ends behind the data of the request. -/
def LSQRequest.copiesPastEnd (r : LSQRequest) (response : Packet) : Bool :=
  r.isLoad && !r.skipped &&
    decide (r.request.size < response.vaddr - r.request.vaddr + response.size)

/-- A split load in flight. -/
structure SplitLoad where
  request : LSQRequest
  hasError : Bool
  overran : Bool
  retired : List (Nat × Packet × Bool)

namespace SplitLoad

/-- The load with its packets. -/
def start (r : LSQRequest) : SplitLoad :=
  { request := r, hasError := false, overran := false, retired := [] }

/-- What happens to the load: the next fragment is sent, or the response to a fragment arrives. -/
inductive Event where
  | send
  | respond (fragment : Nat) (data : Buffer) (error : Bool) (fresh : Buffer)

/-- One event. A complete request sends nothing, and a fragment is answered once. -/
def step (s : SplitLoad) : Event → Option SplitLoad
  | .send =>
    if s.request.isComplete || s.request.sentAllPackets then none
    else some { s with request := s.request.stepToNextPacket }
  | .respond fragment data error fresh =>
    match s.request.fragmentPackets[fragment]? with
    | none => none
    | some packet =>
      if s.request.numIssuedFragments ≤ fragment || s.retired.any (·.1 == fragment) then none
      else
        let response := { packet with data := data }
        some
          { request :=
              if error then s.request.retireError response fresh
              else s.request.retireResponse response fresh
            hasError := s.hasError || (error && !s.request.skipped)
            overran := s.overran || (!error && s.request.copiesPastEnd response)
            retired := (fragment, response, error) :: s.retired }

end SplitLoad

end Gem5.MyMinor
