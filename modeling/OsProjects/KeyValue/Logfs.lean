import OsProjects.KeyValue.Device
import OsProjects.KeyValue.ReadCache
import OsProjects.KeyValue.WriteBuffer

/-!
# The log on a device (`logfs.c`)

Appended bytes are queued in the write buffer. The flusher either drains the oldest
block of the queue or, for a read, writes the whole queue without taking it out. The
flusher thread serves one request at a time and the caller waits for it, so a request
is one call of `flusherPass`. A read whose device read fails returns with `do_flush_m`
held, and every later call waits for this mutex forever.
-/
namespace OsProjects.KeyValue
open OsProjects.Library

/-- `WCACHE_BLOCKS` -/
def wcacheBlocks : Nat := 32

/-- `RCACHE_BLOCKS` -/
def rcacheBlocks : Nat := 256

structure Logfs where
  device : Device
  tailOffset : Nat
  writeBuffer : WriteBuffer
  readCache : ReadCache
  dontDequeueWb : Bool
  /-- `do_flush_m` is held by a caller that returned. -/
  locked : Bool

/-- `logfs_open` on an opened device. -/
def logfsOpen (device : Device) : Logfs where
  device := device
  tailOffset := 0
  writeBuffer := writeBufferOpen (wcacheBlocks * device.block)
  readCache := readCacheOpen rcacheBlocks device.block
  dontDequeueWb := false
  locked := false

/-- The body of the flusher's loop for one request. -/
def flusherPass (lfs : Logfs) : Except Fault Logfs :=
  match writeBufferDequeue lfs.writeBuffer lfs.device.block lfs.dontDequeueWb with
  | .error e => .error e
  | .ok (none, wb) => .ok { lfs with writeBuffer := wb }
  | .ok (some diskWriteBuf, wb) =>
    if diskWriteBuf = [] then .ok { lfs with writeBuffer := wb }
    else
      match deviceWrite lfs.device diskWriteBuf lfs.tailOffset with
      | .error e => .error e
      | .ok (false, device) => .ok { lfs with writeBuffer := wb, device := device }
      | .ok (true, device) =>
        match readCacheInvalidate lfs.readCache lfs.tailOffset diskWriteBuf.length with
        | .error e => .error e
        | .ok rc =>
          .ok { lfs with
            writeBuffer := wb
            device := device
            readCache := rc
            tailOffset := if lfs.dontDequeueWb then lfs.tailOffset
              else (lfs.tailOffset + diskWriteBuf.length) % 2 ^ 64
            dontDequeueWb := false }

/-- `logfs_wb_avail` -/
def logfsWbAvail (lfs : Logfs) : Nat :=
  let wb := lfs.writeBuffer
  if wb.tail < wb.head then wb.head - wb.tail - 1 else (wb.size - wb.tail - 1) + wb.head

/-- The retry loop of `logfs_append`. -/
def addWhenRoom (buf : Bytes) : Nat → Logfs → Except Fault Logfs
  | 0, _ => .error .hang
  | fuel + 1, lfs =>
    match writeBufferAdd lfs.writeBuffer buf with
    | (0, wb) => .ok { lfs with writeBuffer := wb }
    | _ =>
      match flusherPass { lfs with dontDequeueWb := false } with
      | .error e => .error e
      | .ok lfs => addWhenRoom buf fuel lfs

/-- `logfs_append`. Each retry takes a block out of the write buffer, and once the buffer is empty
nothing changes any more. -/
def logfsAppend (lfs : Logfs) (buf : Bytes) : Except Fault Logfs :=
  if lfs.locked then .error .hang
  else
    match addWhenRoom buf (wcacheBlocks + 2) lfs with
    | .error e => .error e
    | .ok lfs =>
      if lfs.device.block ≤ logfsWbAvail lfs then flusherPass { lfs with dontDequeueWb := false }
      else .ok lfs

/-- The loop of `logfs_read_with_flush`; `none` is the return value -1. `rand fuel` is what
`rand()` returns in the pass that has `fuel` passes behind it. The index into a block is an
`int`. -/
def readBlocks (rand : Nat → Nat) : Nat → Logfs → Nat → Nat →
    Except Fault (Option Bytes × Logfs)
  | 0, _, _, _ => .error .hang
  | fuel + 1, lfs, off, len =>
    if len = 0 then .ok (some [], lfs)
    else
      let rc := lfs.readCache
      match readCacheLookup rc off with
      | some cachedElem =>
        let index := toInt (off - cachedElem.beginOffset)
        if index < 0 then .error .wildPointer
        else
          let toCpy := min len (rc.elemSize - index.toNat)
          match readBlocks rand fuel lfs ((off + toCpy) % 2 ^ 64) (len - toCpy) with
          | .error e => .error e
          | .ok (rest, lfs) =>
            .ok (rest.map ((cachedElem.data.drop index.toNat).take toCpy ++ ·), lfs)
      | none =>
        let roundedDownOff := off / rc.elemSize * rc.elemSize
        match deviceRead lfs.device roundedDownOff rc.elemSize with
        | .error e => .error e
        | .ok (none, device) => .ok (none, { lfs with device := device, locked := true })
        | .ok (some tmpBuff, device) =>
          let lfs := { lfs with
            device := device
            readCache := readCacheAdd rc tmpBuff roundedDownOff (rand fuel) }
          let index := toInt (off - roundedDownOff)
          if index < 0 then .error .wildPointer
          else
            let toCpy := min len (rc.elemSize - index.toNat)
            match readBlocks rand fuel lfs ((off + toCpy) % 2 ^ 64) (len - toCpy) with
            | .error e => .error e
            | .ok (rest, lfs) => .ok (rest.map ((tmpBuff.drop index.toNat).take toCpy ++ ·), lfs)

/-- `logfs_read_with_flush`. Each pass of the loop copies at least one byte. -/
def logfsReadWithFlush (lfs : Logfs) (rand : Nat → Nat) (off len : Nat)
    (flushBeforeRead : Bool) : Except Fault (Option Bytes × Logfs) :=
  if lfs.locked then .error .hang
  else if flushBeforeRead then
    match flusherPass { lfs with dontDequeueWb := true } with
    | .error e => .error e
    | .ok lfs => readBlocks rand (len + 1) lfs off len
  else readBlocks rand (len + 1) lfs off len

/-- `logfs_read` -/
def logfsRead (lfs : Logfs) (rand : Nat → Nat) (off len : Nat) :
    Except Fault (Option Bytes × Logfs) :=
  logfsReadWithFlush lfs rand off len true

/-- `logfs_close`: the device as the flusher's last pass leaves it, in the mode that the last
request left. -/
def logfsClose (lfs : Logfs) : Except Fault Device :=
  if lfs.locked then .error .hang
  else
    match flusherPass lfs with
    | .error e => .error e
    | .ok lfs => .ok lfs.device

/-- `logfs_set_tail_offset` adds to the offset. -/
def logfsSetTailOffset (lfs : Logfs) (offset : Nat) : Logfs :=
  { lfs with tailOffset := (lfs.tailOffset + offset) % 2 ^ 64 }

/-- `logfs_wb_add` ignores whether the bytes fit. -/
def logfsWbAdd (lfs : Logfs) (buf : Bytes) : Logfs :=
  let wb := (writeBufferAdd lfs.writeBuffer buf).2
  { lfs with writeBuffer := { wb with lastAvail := (wb.lastAvail + buf.length) % 2 ^ 64 } }

/-- `logfs_wb_deq` -/
def logfsWbDeq (lfs : Logfs) : Except Fault Logfs :=
  match writeBufferDequeue lfs.writeBuffer lfs.device.block false with
  | .error e => .error e
  | .ok (_, wb) => .ok { lfs with writeBuffer := wb }

end OsProjects.KeyValue
