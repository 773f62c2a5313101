/-!
# Adaptive replacement cache

A cache of bounded size that balances recent against frequent use. Entries used once are in `recent`,
entries used again in `frequent`. Keys that were evicted from either are remembered for a while; adding
such a key again moves the balance towards the list that lost it.

Every list has the latest entry first.
-/

namespace WatScript

structure AdaptiveCache (κ α : Type) where
  size : Nat
  target : Nat
  recent : List (κ × α)
  frequent : List (κ × α)
  recentGhosts : List κ
  frequentGhosts : List κ
  deriving Repr, Inhabited

namespace AdaptiveCache

variable {κ α : Type} [DecidableEq κ]

def empty (size : Nat) : AdaptiveCache κ α := ⟨size, 0, [], [], [], []⟩

def without (k : κ) (entries : List (κ × α)) : List (κ × α) := entries.filter (·.1 != k)

def hasKey (k : κ) (entries : List (κ × α)) : Bool := entries.any (·.1 == k)

def touch (size : Nat) (k : κ) (a : α) (entries : List (κ × α)) : List (κ × α) :=
  ((k, a) :: without k entries).take size

def remember (size : Nat) (k : κ) (keys : List κ) : List κ := (k :: keys.filter (· != k)).take size

def get? (c : AdaptiveCache κ α) (k : κ) : AdaptiveCache κ α × Option α :=
  match c.recent.lookup k with
  | some a =>
    ({ c with recent := without k c.recent, frequent := touch c.size k a c.frequent }, some a)
  | none =>
    match c.frequent.lookup k with
    | some a => ({ c with frequent := touch c.size k a c.frequent }, some a)
    | none => (c, none)

def count (c : AdaptiveCache κ α) : Nat := c.recent.length + c.frequent.length

def evictRecent (c : AdaptiveCache κ α) : AdaptiveCache κ α :=
  match c.recent.getLast? with
  | some (k, _) =>
    { c with recent := c.recent.dropLast, recentGhosts := remember c.size k c.recentGhosts }
  | none => c

def evictFrequent (c : AdaptiveCache κ α) : AdaptiveCache κ α :=
  match c.frequent.getLast? with
  | some (k, _) =>
    { c with frequent := c.frequent.dropLast, frequentGhosts := remember c.size k c.frequentGhosts }
  | none => c

/-- Makes room for one entry if there is none. A recent entry goes if there are more than the target,
or as many while `lostFrequent`: the key to be added was evicted from the frequent ones. -/
def makeRoom (c : AdaptiveCache κ α) (lostFrequent : Bool) : AdaptiveCache κ α :=
  if c.count < c.size then c
  else
    let n := c.recent.length
    if 0 < n && (c.target < n || (n == c.target && lostFrequent)) then c.evictRecent
    else c.evictFrequent

/-- How far the target moves when a key returns from `own` ghosts while `other` ghosts exist. -/
def shift (own other : Nat) : Nat := if own < other then other / own else 1

def addLostRecent (c : AdaptiveCache κ α) (k : κ) (a : α) : AdaptiveCache κ α :=
  let delta := shift c.recentGhosts.length c.frequentGhosts.length
  let c := { c with target := min c.size (c.target + delta) }
  -- room is made while the key still stands among the evicted ones
  let c := c.makeRoom false
  { c with
    recentGhosts := c.recentGhosts.filter (· != k)
    frequent := touch c.size k a c.frequent }

def addLostFrequent (c : AdaptiveCache κ α) (k : κ) (a : α) : AdaptiveCache κ α :=
  let delta := shift c.frequentGhosts.length c.recentGhosts.length
  let c := { c with target := c.target - delta }
  let c := c.makeRoom true
  { c with
    frequentGhosts := c.frequentGhosts.filter (· != k)
    frequent := touch c.size k a c.frequent }

def addNew (c : AdaptiveCache κ α) (k : κ) (a : α) : AdaptiveCache κ α :=
  let c := c.makeRoom false
  { c with
    recentGhosts :=
      if c.size - c.target < c.recentGhosts.length then c.recentGhosts.dropLast else c.recentGhosts
    frequentGhosts :=
      if c.target < c.frequentGhosts.length then c.frequentGhosts.dropLast else c.frequentGhosts
    recent := touch c.size k a c.recent }

def add (c : AdaptiveCache κ α) (k : κ) (a : α) : AdaptiveCache κ α :=
  if hasKey k c.recent then
    { c with recent := without k c.recent, frequent := touch c.size k a c.frequent }
  else if hasKey k c.frequent then { c with frequent := touch c.size k a c.frequent }
  else if c.recentGhosts.contains k then c.addLostRecent k a
  else if c.frequentGhosts.contains k then c.addLostFrequent k a
  else c.addNew k a

/-- Forgets all entries and all evicted keys, but not the balance. -/
def clear (c : AdaptiveCache κ α) : AdaptiveCache κ α := { (empty c.size) with target := c.target }

end AdaptiveCache

end WatScript
