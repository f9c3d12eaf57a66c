/-! Heap use measured around a workload. -/

namespace EntityStore.Workload

structure MemoryStats where
  bytesAllocated : UInt64 := 0
  allocationCount : UInt64 := 0
  peakBytes : UInt64 := 0
  deriving DecidableEq, Repr

/-- A total shared out among items, of which there may be none. -/
def perItem (total items : UInt64) : Float := if items = 0 then 0 else total.toFloat / items.toFloat

namespace MemoryStats

def peakBytesPerItem (m : MemoryStats) (items : UInt64) : Float := perItem m.peakBytes items

def allocationsPerItem (m : MemoryStats) (items : UInt64) : Float := perItem m.allocationCount items

def summary (m : MemoryStats) : String :=
  s!"allocated: {m.bytesAllocated} bytes ({m.allocationCount} allocs), peak: {m.peakBytes} bytes"

/-- Runs a workload. Nothing is measured where no profiler is built in. -/
def measure {α : Type} (workload : Unit → α) : α × MemoryStats := (workload (), {})

end MemoryStats
end EntityStore.Workload
