import MemoryHierarchy.Cache.Transparency
import MemoryHierarchy.Simulator.TestCache

/-!
# Programs without caches

What a program means: a machine whose only state is the bytes of memory (`flatCommand`). Every
address is translated by a walk through these bytes as they are, so writes to page tables take
effect, and every read gets them. The simulator is that machine for programs whose writes find the
only copy of their line (`program_flat`): the caches neither serve a stale word nor leave memory
behind, page tables included.
-/

namespace MemoryHierarchy.TestCache

open Lib

/-! ### The machine without caches -/

/-- The words that bytes make up. -/
def wordsAt (bytes : ℕ → Byte) : Mem := fun i => ofBytes fun j => bytes (4 * i + j)

/-- A command on a flat memory. -/
def flatCommand : Machine (ℕ → Byte) Command Reply := fun bytes command =>
  (operation (wordsAt bytes) command).map fun op => (applyWrites bytes op.writes, op.answer bytes)

theorem wordsAt_memBytes (mem : Mem) : wordsAt (memBytes mem) = mem := by
  funext i
  rw [wordsAt, ofBytes_memBytes mem (Nat.mul_mod_right 4 i), Nat.mul_div_cancel_left i (by decide)]

/-! ### Simulation -/

/-- The caches hold copies of memory, which is the flat memory. -/
structure Mirrors (s : CacheState) (bytes : ℕ → Byte) : Prop where
  sound : s.L1Sound
  faithful : s.Faithful
  memory : memBytes s.memSpace = bytes

theorem mirrors_flushed (memSpace : Mem) : Mirrors (flushed memSpace) (memBytes memSpace) :=
  ⟨l1Sound_flushed memSpace, faithful_flushed memSpace, rfl⟩

/-- The step condition: if the command writes anything new, it finds the only copy of its line. -/
def WritesSoleCopy (s : CacheState) (command : Command) : Prop :=
  ∀ op ∈ operation s.memSpace command, s.WritesSoleCopy op

instance (s : CacheState) (command : Command) : Decidable (WritesSoleCopy s command) :=
  inferInstanceAs (Decidable (∀ op ∈ operation s.memSpace command, s.WritesSoleCopy op))

/-- **One command** does the same with and without caches. -/
theorem simulates_flatCommand :
    Machine.Simulates executeCommand flatCommand WritesSoleCopy Mirrors := by
  rintro s bytes command ⟨hsound, hfaithful, rfl⟩ hsole
  rw [executeCommand, flatCommand, wordsAt_memBytes]
  cases hop : operation s.memSpace command with
  | none => exact .none
  | some op =>
    obtain ⟨hfaithful', hmemory⟩ := hfaithful.stepCommand hsound (hsole op hop)
    refine .some ⟨⟨?_, hfaithful', hmemory⟩, executeCommand_reply hfaithful op⟩
    exact l1Sound_stepCommand hsound op

/-- **Programs run as without caches.** If the commands pass their checks and every write finds the
only copy of its line, or writes what is there, the run of the program through the caches comes to
its end with the replies, and the memory, of a machine that has none. -/
theorem program_flat (memSpace : Mem) (commands : List Command)
    (hchecked : ∀ command ∈ commands, checkCommand command = .errNone)
    (hsole : executeCommand.Meets WritesSoleCopy (flushed memSpace) commands) :
    ∃ s replies, executeCommand.run (flushed memSpace) commands = some (s, replies) ∧
      flatCommand.run (memBytes memSpace) commands = some (memBytes s.memSpace, replies) ∧
      replies.length = commands.length ∧ ∀ reply ∈ replies, reply.err = .errNone := by
  obtain ⟨s, replies, hrun, hlength, hreplies⟩ :=
    exists_run_executeCommand hchecked (flushed memSpace)
  refine ⟨s, replies, hrun, ?_, hlength, hreplies⟩
  have hstep := simulates_flatCommand.run (mirrors_flushed memSpace) hsole
  rw [hrun] at hstep
  rcases hflat : flatCommand.run (memBytes memSpace) commands with _ | ⟨bytes, replies'⟩
  · rw [hflat] at hstep
    cases hstep
  · rw [hflat] at hstep
    rcases hstep with ⟨⟨-, -, hmemory⟩, heq⟩ | _
    rw [hmemory, show replies = replies' from heq]

/-- `W DW 0x2000 @0x8`, `W DW 0x7 @0x2004` and `R DW @0x2004`: in a memory of zeros the first one
maps the page the others are about. -/
def remapProgram : List Command :=
  [⟨some .write, some .data, 4, 0x2000, ⟨0, 0, 0, 0, 0, 8⟩⟩,
    ⟨some .write, some .data, 4, 7, ⟨0, 0, 0, 0, 2, 4⟩⟩,
    ⟨some .read, some .data, 4, 0, ⟨0, 0, 0, 0, 2, 4⟩⟩]

/-- A program that writes its own page table. -/
theorem program_flat_remap :
    (executeCommand.run (flushed fun _ => 0) remapProgram).map Prod.snd =
      some [⟨.errNone, none, none⟩, ⟨.errNone, none, none⟩, ⟨.errNone, some 7, none⟩] := by
  obtain ⟨s, replies, hrun, hflat, -⟩ :=
    program_flat (fun _ => 0) remapProgram (by decide) (by decide +kernel)
  have hreplies : (flatCommand.run (memBytes fun _ => 0) remapProgram).map Prod.snd =
      some [⟨.errNone, none, none⟩, ⟨.errNone, none, none⟩, ⟨.errNone, some 7, none⟩] := by
    decide +kernel
  rw [hflat] at hreplies
  rw [hrun]
  exact hreplies

end MemoryHierarchy.TestCache
