import EntityStore.Key
import EntityStore.Layout

/-! The component types of the sorting workload. -/

namespace EntityStore.Workload

/-- Component types that the workload knows. -/
def typeCount : Nat := 8

def componentTypes (n : Nat) : List Key := (List.range (min n typeCount)).map Key.component

/-- One component of each of the first `n` types, the last one in front. -/
def components (n : Nat) : List Key := (componentTypes n).reverse

structure SortRun where
  codes : List UInt32
  /-- The offsets of the components as they were made. -/
  before : List (Option Nat)
  wasSorted : Bool
  /-- The offsets of the components in their order after the sort. -/
  after : List (Option Nat)

def sortRun (n : Nat) : Except IndexError SortRun :=
  (Layout.create (ClassIndex.standard : ClassIndex Key) (componentTypes n)).result.map fun layout =>
    let cs := components n
    { codes := layout.codes
      before := cs.map layout.offsetOf?
      wasSorted := layout.isSorted id cs
      after := (layout.sort id cs).map layout.offsetOf? }

end EntityStore.Workload
