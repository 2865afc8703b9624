import ReleasePrompts.Service.Load
import ReleasePrompts.Settings

/-!
# The shared service

One service is shared by all requests of a process. It is set up by the settings when it is asked
for first, and again after it was closed.
-/

namespace ReleasePrompts.Service

open Registry

/-- What a service is set up with by the settings. -/
def Config.ofSettings (settings : Settings) : Config where
  client := ⟨settings.packageName, some settings.archiveBytes⟩
  archiveLimit := some settings.archiveBytes
  programFiles := settings.programFiles

/-- The shared service by its number, if there is one, and how many there have been. -/
structure Shared where
  current : Option Nat := none
  made : Nat := 0
  deriving DecidableEq, Repr

namespace Shared

/-- The number of the shared service, which is set up if there is none. -/
def get (shared : Shared) : Nat × Shared :=
  match shared.current with
  | some number => (number, shared)
  | none => (shared.made, ⟨some shared.made, shared.made + 1⟩)

/-- Closes the shared service. -/
def close (shared : Shared) : Shared := { shared with current := none }

end Shared

end ReleasePrompts.Service
