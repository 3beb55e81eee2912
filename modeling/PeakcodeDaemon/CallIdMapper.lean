import Mathlib.Logic.Function.Basic
import PeakcodeDaemon.Ipc

/-!
# Provider call ids and outward handles

The map from a provider's call id to the opaque handle that stands for it.
`new_handle` is an input here: each operation is given the handle that a
call of it would return, and says whether it was called.

The three operations differ in what they leave behind, and all the results
on handles come down to it: `startApproval` draws a handle always and
replaces the one in place, `startEvent` keeps the one in place, and
`finish` gives it up.
-/

namespace PeakcodeDaemon

structure CallIdMapper where
  active : Text → Option Text

namespace CallIdMapper

def empty : CallIdMapper := ⟨fun _ => none⟩

/-- Every approval gets a fresh handle, which replaces the one in place. -/
def startApproval (m : CallIdMapper) (providerCallId handle : Text) : CallIdMapper :=
  ⟨Function.update m.active providerCallId (some handle)⟩

/-- The handle in place, or a fresh one that takes its place. -/
def startEvent (m : CallIdMapper) (providerCallId handle : Text) :
    Text × List Text × CallIdMapper :=
  match m.active providerCallId with
  | some h => (h, [], m)
  | none => (handle, [handle], m.startApproval providerCallId handle)

/-- The handle in place, which is given up, or a fresh one. -/
def finish (m : CallIdMapper) (providerCallId handle : Text) :
    Text × List Text × CallIdMapper :=
  match m.active providerCallId with
  | some h => (h, [], ⟨Function.update m.active providerCallId none⟩)
  | none => (handle, [handle], m)

section

variable {m : CallIdMapper} {providerCallId h : Text}

theorem startEvent_some (hactive : m.active providerCallId = some h) (handle : Text) :
    m.startEvent providerCallId handle = (h, [], m) := by
  simp only [startEvent, hactive]

theorem startEvent_none (hactive : m.active providerCallId = none) (handle : Text) :
    m.startEvent providerCallId handle =
      (handle, [handle], m.startApproval providerCallId handle) := by
  simp only [startEvent, hactive]

theorem finish_some (hactive : m.active providerCallId = some h) (handle : Text) :
    m.finish providerCallId handle =
      (h, [], ⟨Function.update m.active providerCallId none⟩) := by
  simp only [finish, hactive]

end

end CallIdMapper

end PeakcodeDaemon
