import Gem5.MyMinor.CVU
import Gem5.MyMinor.LSQRequest
import Gem5.MyMinor.PipeData

/-!
# `Gem5.MyMinor.MemResponse`: completing a memory access

The model of `Execute::handleMemResponse` in `src/cpu/myminor/execute.cc`, up to the
point where it hands the request back to the LSQ. The steps are: look the access up in
the CVU and replace its data on a hit, complete the instruction, compare the data with
the prediction, insert a confirmed constant into the CVU, invalidate CVU entries for a
store that goes to the store buffer, and fill in the training message for the LVPT.

`ResponseEnv` holds what comes from outside: `completeAcc` of the instruction set, the
value of `rand()`, and the bytes that lie behind the two buffers the code reads past the
end of.
-/

namespace Gem5.MyMinor

/-- What `handleMemResponse` takes from outside the modelled code. `pastData` are the
bytes behind `packet->data`, which the 8-byte read of `packetdata` sees when the access is
shorter. `pastValue` are the bytes behind `lvptOutValue`, which the copy into the packet
sees when the access is longer than 8 bytes. -/
structure ResponseEnv where
  completeAcc : Packet → Fault
  pastData : Buffer
  pastValue : Buffer
  rand : Nat

/-- What `handleMemResponse` leaves behind. `lvptIn` is `none` when the training fields
of the branch are not written. -/
structure MemResult where
  cvu : CVU
  packet : Option Packet
  fault : Fault
  toStoreBuffer : Bool
  lvptIn : Option LvptIn

namespace MemResponse

/-- The CVU lookup with the fields of the instruction. -/
def entryInCVU (cvu : CVU) (inst : DynInst) (packet : Packet) : Bool :=
  cvu.verifyEntryInCVU packet.vaddr inst.lvptOut.index inst.lvptOut.value
    inst.lvptOut.constant

/-- `lvptOutValue` as a buffer. -/
def valueBytes (value : Word) (pastValue : Buffer) : Buffer :=
  fun i => if i < 8 then Lib.byteOfWord value i else pastValue i

/-- The packet after the substitution: on a hit its data is `lvptOutValue`. The test
does not ask whether the instruction is a load. -/
def substitute (cvu : CVU) (inst : DynInst) (packet : Packet) (pastValue : Buffer) :
    Packet :=
  if entryInCVU cvu inst packet then
    { packet with data := valueBytes inst.lvptOut.value pastValue }
  else packet

/-- The number of bytes at `packet->data` when `packetdata` is read. A hit has put a new array
there, and `makePacketForRequest` gives no array to a cache maintenance operation. -/
def dataLength (cvu : CVU) (inst : DynInst) (packet : Packet) : Nat :=
  if entryInCVU cvu inst packet || packet.isLoad || !packet.isMaintenance then packet.size else 0

/-- The offsets from `packet->data` that the read of `packetdata` touches. -/
def packetDataOffsets : List Nat := List.range 8

/-- `packetdata`: eight bytes at `packet->data`, whatever the size of the access. -/
def packetData (packet : Packet) (pastData : Buffer) : Word :=
  Lib.wordOfBytes fun i => if i < packet.size then packet.data i else pastData i

/-- The prediction was right: `change_counter` becomes 1. -/
def predictedRight (inst : DynInst) (packetdata : Word) : Bool :=
  inst.lvptOut.predict && packetdata == inst.lvptOut.value

variable (thresholdLCT : Nat)

/-- Whether the load is inserted into the CVU: a right prediction at exactly the
threshold that the CVU does not hold yet. -/
def insertsEntry (cvu : CVU) (inst : DynInst) (packet : Packet) (packetdata : Word) : Bool :=
  inst.staticInst.isLoad && predictedRight inst packetdata &&
    inst.lvptOut.counter == thresholdLCT &&
    !cvu.verifyEntryInCVU packet.vaddr inst.lvptOut.index inst.lvptOut.value true

/-- The CVU after the load part of `handleMemResponse`. -/
def cvuAfterLoad (cvu : CVU) (inst : DynInst) (packet : Packet) (packetdata : Word) (rand : Nat) :
    CVU :=
  if insertsEntry thresholdLCT cvu inst packet packetdata then
    cvu.addEntryToCVU packetdata inst.lvptOut.index packet.vaddr packet.paddr rand
  else cvu

/-- The training message. The virtual address is cut to 32 bits. A store sends a message
too, with `constant` false. -/
def trainingMessage (inst : DynInst) (packet : Packet) (packetdata : Word) : LvptIn :=
  { pc := inst.pc.instAddr
    addr := packet.vaddr % 2 ^ 32
    value := packetdata
    predict := inst.staticInst.isLoad && predictedRight inst packetdata
    constant := inst.staticInst.isLoad }

/-- The branch of `handleMemResponse` for an access that has a packet. -/
def completeAccess (env : ResponseEnv) (cvu : CVU) (response : LSQRequest) (packet : Packet) :
    MemResult :=
  let inst := response.inst
  let packet := substitute cvu inst packet env.pastValue
  let fault := env.completeAcc packet
  let packetdata := packetData packet env.pastData
  let cvu := cvuAfterLoad thresholdLCT cvu inst packet packetdata env.rand
  match fault with
  | some f =>
    { cvu := cvu, packet := some packet, fault := some f, toStoreBuffer := false,
      lvptIn := none }
  | none =>
    if response.needsToBeSentToStoreBuffer then
      { cvu := cvu.storeInvalidate packet.vaddr packet.paddr, packet := some packet,
        fault := noFault, toStoreBuffer := true,
        lvptIn := some (trainingMessage inst packet packetdata) }
    else
      { cvu := cvu, packet := some packet, fault := noFault, toStoreBuffer := false,
        lvptIn := some (trainingMessage inst packet packetdata) }

end MemResponse

open MemResponse in
/-- `handleMemResponse` before `popResponse`. A translation fault is taken unless the
instruction is a prefetch. A request without a packet completes with nothing. -/
def handleMemResponse (thresholdLCT : Nat) (env : ResponseEnv) (cvu : CVU)
    (response : LSQRequest) : MemResult :=
  let nothing : MemResult :=
    { cvu := cvu, packet := response.packet, fault := noFault, toStoreBuffer := false,
      lvptIn := none }
  match response.translationFault with
  | some f =>
    if response.inst.staticInst.isPrefetch then nothing
    else { nothing with fault := some f }
  | none =>
    match response.packet with
    | none => nothing
    | some packet => completeAccess thresholdLCT env cvu response packet

end Gem5.MyMinor
