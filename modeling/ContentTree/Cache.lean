import ContentTree.Decimal.Shortest
import ContentTree.Value.Basic

/-!
# Cached values

A cache keeps computed values under a key until their time is over. Looking a key up also sets the
time to live of its entry, which counts from the next computation on. A computation that fails
leaves the entry as it was. Points in time and spans of time are in nanoseconds.

What a clock shows is not up to a program. A clock holds what it is going to show whenever it is
read, so that what is said of every clock is said of every way in which time may pass.

## Main definitions

* `Clock`, `Clock.read`: clocks.
* `Cache`, `Cache.Entry`: caches.
* `Cache.fresh?`: the value of an entry whose time is not over.
* `Cache.lookupBy`, `Cache.lookup`: the value under a key, computed where there is no fresh one.
* `Cache.span?`: a span of time given in seconds.
-/

namespace ContentTree

/-- A clock, with what it shows at each reading. -/
structure Clock where
  shows : Nat → Nat := fun _ => 0
  /-- How many times it has been read. -/
  readings : Nat := 0

/-- Reads a clock. -/
def Clock.read : StateM Clock Nat := fun c =>
  (c.shows c.readings, { c with readings := c.readings + 1 })

/-- A computed value with its time. -/
structure Cache.Entry where
  value : Value
  expiresAt : Nat
  timeToLive : Nat

/-- Computed values by key. -/
structure Cache where
  entries : Std.ExtTreeMap String Cache.Entry := ∅

namespace Cache

/-- Whether the time of an entry is not over. -/
def Entry.isFresh (e : Entry) (now : Nat) : Bool :=
  now < e.expiresAt

/-- The value under a key, as long as its time is not over. -/
def fresh? (c : Cache) (now : Nat) (key : String) : Option Value :=
  (c.entries[key]?).bind fun e => if e.isFresh now then some e.value else none

/-- Sets the time to live of an entry, if there is one. -/
def setTimeToLive (c : Cache) (key : String) (timeToLive : Nat) : Cache :=
  ⟨c.entries.alter key (Option.map ({ · with timeToLive }))⟩

/-- When the time of a value is over that is computed now. A clock shows less than `2 ^ 63` seconds;
what would expire later is kept for `2 ^ 32 - 1` seconds. -/
def expiry (now timeToLive : Nat) : Nat :=
  if now + timeToLive < Nat.pow 2 63 * Nat.pow 10 9 then now + timeToLive
  else now + (Nat.pow 2 32 - 1) * Nat.pow 10 9

/-- Stores a value that has just been computed. -/
def store (c : Cache) (now : Nat) (key : String) (timeToLive : Nat) (value : Value) : Cache :=
  ⟨c.entries.insert key { value, expiresAt := expiry now timeToLive, timeToLive }⟩

/-- The configured time to live of an entry. -/
def timeToLive? (c : Cache) (key : String) : Option Nat :=
  (c.entries[key]?).map Entry.timeToLive

/-- A cache without the entry under a key. -/
def invalidate (c : Cache) (key : String) : Cache :=
  ⟨c.entries.erase key⟩

/-- How many entries there are. -/
def size (c : Cache) : Nat :=
  c.entries.size

section Lookup

variable {m : Type → Type} [Monad m] [MonadStateOf Cache m]

/-- The value under a key, by a clock. Where there is no fresh one it is computed and stored; the
time of an entry counts from the end of the computation on. -/
def lookupBy (clock : m Nat) (key : String) (timeToLive : Nat) (compute : m Value) : m Value := do
  modifyThe Cache (·.setTimeToLive key timeToLive)
  if let some e := (← getThe Cache).entries[key]? then
    if e.isFresh (← clock) then return e.value
  let v ← compute
  let now ← clock
  modifyThe Cache (·.store now key timeToLive v)
  return v

/-- The value under a key, where no time passes meanwhile. -/
def lookup (now : Nat) (key : String) (timeToLive : Nat) (compute : m Value) : m Value :=
  lookupBy (pure now) key timeToLive compute

end Lookup

/-- A span of time given in seconds, to the nearest nanosecond and of two to the even one. What is
not above zero counts as zero; from `2 ^ 64` seconds on there is none. -/
def span? (seconds : Float) : Option Nat :=
  if 0.0 < seconds then
    if seconds < 18446744073709551616.0 then
      let b := Decimal.Binary.ofFloat seconds
      let units := b.mantissa * Nat.pow 10 9
      if 0 ≤ b.exponent then some (units * Nat.pow 2 b.exponent.toNat)
      else
        let half := Nat.pow 2 ((-b.exponent).toNat - 1)
        let below := units / (2 * half)
        let rest := units % (2 * half)
        some (if half < rest || (rest = half && below % 2 = 1) then below + 1 else below)
    else none
  else some 0

end Cache

end ContentTree
