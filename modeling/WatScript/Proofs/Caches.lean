import WatScript.Engine.Basic
import WatScript.Proofs.SourceKeys
import WatScript.Proofs.VerifiedCode

/-!
# Engines and their caches

A fleet is a number of engines, each with settings of its own, that share one store. Whatever is asked of
them in which order, and whatever entries their caches and the store lose in between, the entry under a
key was compiled from a source whose fingerprint has this key (`Fleet.IsFilled`). So unless two
fingerprints have met with the same digest, an entry that is found is the one that compiling would give
(`Entered.direct_eq`), and an engine answers as `Program.direct` does, which knows no caches.

Engines with different settings may find what others have left: the nesting limit is part of the
fingerprint, and verification, which is not, never rejects generated code (`Program.build_normalize`).
-/

namespace WatScript

open List Program

/-! ## Compiling without caches -/

/-- What a source text compiles to under a nesting limit: the text is normalized and read, its code is
generated and written. -/
def Program.direct (maxDepth : Int64) (isExpr : Bool) (source : Text) :
    Except EngineFault Program := do
  let atoms ← (read maxDepth isExpr source.normalize).mapError .reading
  let code ← (generate isExpr atoms).mapError .generating
  let (yields, tailCall) := if isExpr then (true, none) else tailOf atoms
  return {
    source := source.normalize, isExpr, atoms, code, yields, tailCall
    key := keyOf maxDepth isExpr source.normalize
    wat := (formatCode code).toString
    symbols := Symbols.ofRun atoms }

theorem Program.build_normalize (config : Config) (isExpr : Bool) (source : Text) :
    build config isExpr source.normalize = direct config.maxDepth isExpr source := by
  unfold build direct
  cases hr : Program.read config.maxDepth isExpr source.normalize with
  | error f => rfl
  | ok atoms =>
    simp only [Except.mapError, bind, Except.bind]
    cases hg : Program.generate isExpr atoms with
    | error f => rfl
    | ok code =>
      simp only [verify_generate hr hg]
      cases config.verify <;> rfl

/-! ## Entries of a cache -/

namespace AdaptiveCache
variable {κ α : Type} [DecidableEq κ] {c : AdaptiveCache κ α} {k : κ} {a : α} {x : κ × α}

/-- What the cache holds. -/
def entries (c : AdaptiveCache κ α) : List (κ × α) := c.recent ++ c.frequent

/-- The cache after it has lost the entries of some keys. -/
def keeping (kept : κ → Bool) (c : AdaptiveCache κ α) : AdaptiveCache κ α :=
  { c with
    recent := c.recent.filter fun x => kept x.1
    frequent := c.frequent.filter fun x => kept x.1 }

omit [DecidableEq κ] in
theorem mem_entries : x ∈ c.entries ↔ x ∈ c.recent ∨ x ∈ c.frequent := mem_append

omit [DecidableEq κ] in
theorem mem_of_keeping {kept} (h : x ∈ (c.keeping kept).entries) : x ∈ c.entries :=
  mem_entries.2 ((mem_entries.1 h).imp mem_of_mem_filter mem_of_mem_filter)

theorem mem_of_lookup {entries : List (κ × α)} (h : entries.lookup k = some a) : (k, a) ∈ entries := by
  obtain ⟨front, rest, rfl, -⟩ := lookup_eq_some_iff.1 h
  simp

theorem mem_of_without {entries} (h : x ∈ without k entries) : x ∈ entries :=
  mem_of_mem_filter h

theorem mem_of_touch {size entries} (h : x ∈ touch size k a entries) : x = (k, a) ∨ x ∈ entries :=
  (mem_cons.1 (mem_of_mem_take h)).imp_right mem_of_without

theorem get?_entries (c : AdaptiveCache κ α) (k : κ) :
    (∀ a, (c.get? k).2 = some a → (k, a) ∈ c.entries) ∧
      ∀ x ∈ (c.get? k).1.entries, x ∈ c.entries := by
  unfold get?
  split
  · rename_i a ha
    have hmem := mem_of_lookup ha
    refine ⟨fun b hb => mem_entries.2 (.inl (Option.some.inj hb ▸ hmem)), fun x hx => ?_⟩
    rcases mem_entries.1 hx with hx | hx
    · exact mem_entries.2 (.inl (mem_of_without hx))
    · rcases mem_of_touch hx with rfl | hx
      · exact mem_entries.2 (.inl hmem)
      · exact mem_entries.2 (.inr hx)
  · split
    · rename_i a ha
      have hmem := mem_of_lookup ha
      refine ⟨fun b hb => mem_entries.2 (.inr (Option.some.inj hb ▸ hmem)), fun x hx => ?_⟩
      rcases mem_entries.1 hx with hx | hx
      · exact mem_entries.2 (.inl hx)
      · rcases mem_of_touch hx with rfl | hx
        · exact mem_entries.2 (.inr hmem)
        · exact mem_entries.2 (.inr hx)
    · refine ⟨fun b hb => ?_, fun x hx => hx⟩
      cases hb

theorem mem_of_evictRecent (h : x ∈ c.evictRecent.entries) : x ∈ c.entries := by
  unfold evictRecent at h
  split at h
  · exact mem_entries.2 ((mem_entries.1 h).imp_left (dropLast_subset _ ·))
  · exact h

theorem mem_of_evictFrequent (h : x ∈ c.evictFrequent.entries) : x ∈ c.entries := by
  unfold evictFrequent at h
  split at h
  · exact mem_entries.2 ((mem_entries.1 h).imp_right (dropLast_subset _ ·))
  · exact h

theorem mem_of_makeRoom {lostFrequent} (h : x ∈ (c.makeRoom lostFrequent).entries) :
    x ∈ c.entries := by
  unfold makeRoom at h
  split at h
  · exact h
  · dsimp only at h
    split at h
    · exact mem_of_evictRecent h
    · exact mem_of_evictFrequent h

theorem mem_of_promote {recent size} (hrecent : ∀ y ∈ recent, y ∈ c.recent)
    (h : x ∈ recent ++ touch size k a c.frequent) : x = (k, a) ∨ x ∈ c.entries := by
  rcases mem_append.1 h with hx | hx
  · exact .inr (mem_entries.2 (.inl (hrecent x hx)))
  · exact (mem_of_touch hx).imp_right fun hx => mem_entries.2 (.inr hx)

theorem mem_of_addLostRecent (h : x ∈ (c.addLostRecent k a).entries) :
    x = (k, a) ∨ x ∈ c.entries := by
  have hx := mem_of_promote (c := makeRoom { c with target := _ } false) (fun _ hy => hy) h
  refine hx.imp_right fun hx => ?_
  have hold := mem_of_makeRoom hx
  exact hold

theorem mem_of_addLostFrequent (h : x ∈ (c.addLostFrequent k a).entries) :
    x = (k, a) ∨ x ∈ c.entries := by
  have hx := mem_of_promote (c := makeRoom { c with target := _ } true) (fun _ hy => hy) h
  refine hx.imp_right fun hx => ?_
  have hold := mem_of_makeRoom hx
  exact hold

theorem mem_of_addNew (h : x ∈ (c.addNew k a).entries) : x = (k, a) ∨ x ∈ c.entries := by
  rcases mem_entries.1 h with hx | hx
  · exact (mem_of_touch hx).imp_right fun hx => mem_of_makeRoom (mem_entries.2 (.inl hx))
  · exact .inr (mem_of_makeRoom (mem_entries.2 (.inr hx)))

theorem mem_of_add (h : x ∈ (c.add k a).entries) : x = (k, a) ∨ x ∈ c.entries := by
  unfold add at h
  split at h
  · exact mem_of_promote (fun _ => mem_of_without) h
  split at h
  · exact mem_of_promote (fun _ hy => hy) h
  split at h
  · exact mem_of_addLostRecent h
  split at h
  · exact mem_of_addLostFrequent h
  · exact mem_of_addNew h

end AdaptiveCache

theorem TextTable.mem_of_put {t : TextTable} {k : Digest} {text : String} {x : Digest × String}
    (h : x ∈ t.put k text) : x = (k, text) ∨ x ∈ t :=
  (mem_cons.1 h).imp_right mem_of_mem_filter

theorem Store.mem_of_put {s : Store} {k : Digest} {text : String} {x : Digest × String}
    (h : x ∈ (s.put k text).texts) : x = (k, text) ∨ x ∈ s.texts := by
  unfold Store.put at h
  split at h
  · exact .inr h
  · exact TextTable.mem_of_put h

/-! ## Fleets -/

/-- Engines that share a store. -/
structure Fleet where
  store : Option Store
  engines : List Engine

/-- What happens to a fleet. Sources arrive as bytes. Caches and the store may lose entries at any time:
of the keys they know, they keep those that `kept` picks. -/
inductive Event where
  | launch (config : Config)
  | compile (n : Nat) (isExpr : Bool) (source : List UInt8)
  | wat (n : Nat) (source : List UInt8)
  | register (n : Nat) (name : String) (host : HostEntry)
  | run (n : Nat) (p : Program) (canceled : Bool) (args : List Int32)
  | close (n : Nat)
  /-- An engine gives way to a new one, which opens the store again. -/
  | reopen (n : Nat) (config : Config)
  | losePrograms (n : Nat) (kept : Digest → Bool)
  | loseTexts (n : Nat) (kept : Digest → Bool)
  | loseStored (kept : Digest → Bool)

namespace Fleet

/-- No engines yet, and an empty store or none. -/
def start (hasStore : Bool) : Fleet := ⟨if hasStore then some .empty else none, []⟩

/-- An engine of the fleet, with the store as it is now. -/
def engine? (f : Fleet) (n : Nat) : Option Engine :=
  f.engines[n]?.map fun e => { e with store := f.store }

/-- Lets one engine act; what becomes of its store becomes of the store of all. -/
def act (f : Fleet) (n : Nat) (action : Engine → Engine) : Fleet :=
  match f.engine? n with
  | none => f
  | some e => ⟨(action e).store, f.engines.set n (action e)⟩

/-- The fleet after an event. Running a program changes no engine. -/
def after (f : Fleet) : Event → Fleet
  | .launch config => { f with engines := f.engines ++ [.create config f.store] }
  | .compile n isExpr source => f.act n fun e => (e.compile isExpr (.decode source)).1
  | .wat n source => f.act n fun e => (e.wat (.decode source)).1
  | .register n name host => f.act n fun e => e.register name host
  | .run .. => f
  | .close n => f.act n fun e => e.close.1
  | .reopen n config => f.act n fun e => .create config (e.store.map Store.reopen)
  | .losePrograms n kept => f.act n fun e => { e with programs := e.programs.keeping kept }
  | .loseTexts n kept => f.act n fun e => { e with texts := e.texts.filter fun x => kept x.1 }
  | .loseStored kept =>
    { f with store := f.store.map fun s => { s with texts := s.texts.filter fun x => kept x.1 } }

/-- The fleet after events, first one first. -/
def afterAll (f : Fleet) (events : List Event) : Fleet := events.foldl after f

end Fleet

/-- The bytes whose digest is the key of a source. -/
def fingerprintBytes (maxDepth : Int64) (isExpr : Bool) (source : List UInt8) : List UInt8 :=
  (fingerprint maxDepth isExpr (Text.decode source).normalize).encode

/-- The bytes that an event takes the digest of. -/
def Event.hashed (f : Fleet) : Event → List (List UInt8)
  | .compile n isExpr source =>
    (f.engine? n).toList.map fun e => fingerprintBytes e.config.maxDepth isExpr source
  | .wat n source => (f.engine? n).toList.map fun e => fingerprintBytes e.config.maxDepth false source
  | _ => []

/-- The bytes that events take the digests of. -/
def Fleet.hashed : Fleet → List Event → List (List UInt8)
  | _, [] => []
  | f, event :: rest => event.hashed f ++ (f.after event).hashed rest

/-- No two of the byte sequences have the same digest. -/
def CollisionFree (hashed : List (List UInt8)) : Prop :=
  ∀ x ∈ hashed, ∀ y ∈ hashed, Digest.ofBytes x = Digest.ofBytes y → x = y

theorem Fleet.hashed_append (f : Fleet) (events rest : List Event) :
    f.hashed (events ++ rest) = f.hashed events ++ (f.afterAll events).hashed rest := by
  induction events generalizing f with
  | nil => rfl
  | cons event events ih => simp [Fleet.hashed, Fleet.afterAll, ih]

/-! ## What has been entered -/

/-- The program was compiled from a source whose fingerprint has been hashed to the key. -/
def Entered (hashed : List (List UInt8)) (key : Digest) (p : Program) : Prop :=
  ∃ maxDepth isExpr source, fingerprintBytes maxDepth isExpr source ∈ hashed ∧
    key = .ofBytes (fingerprintBytes maxDepth isExpr source) ∧
    direct maxDepth isExpr (.decode source) = .ok p

/-- Some program that was entered under the key has the text. -/
def TextEntered (hashed : List (List UInt8)) (key : Digest) (text : String) : Prop :=
  ∃ p, Entered hashed key p ∧ p.wat = text

section
variable {hashed hashed' : List (List UInt8)} {key : Digest} {p : Program} {text : String}

theorem Entered.mono (h : Entered hashed key p) (hsub : ∀ x ∈ hashed, x ∈ hashed') :
    Entered hashed' key p := by
  obtain ⟨maxDepth, isExpr, source, hmem, hkey, hp⟩ := h
  exact ⟨maxDepth, isExpr, source, hsub _ hmem, hkey, hp⟩

theorem TextEntered.mono (h : TextEntered hashed key text) (hsub : ∀ x ∈ hashed, x ∈ hashed') :
    TextEntered hashed' key text := by
  obtain ⟨p, hp, htext⟩ := h
  exact ⟨p, hp.mono hsub, htext⟩

theorem Program.direct_eq_of_fingerprint {maxDepth maxDepth' isExpr isExpr' source source'}
    (h : fingerprintBytes maxDepth isExpr source = fingerprintBytes maxDepth' isExpr' source') :
    direct maxDepth isExpr (.decode source) = direct maxDepth' isExpr' (.decode source') := by
  obtain ⟨rfl, rfl, hsource⟩ := encode_fingerprint_injective
    (Text.isDecoded_normalize (Text.isDecoded_decode source))
    (Text.isDecoded_normalize (Text.isDecoded_decode source')) h
  unfold direct
  rw [hsource]

/-- Without collisions, what has been entered under the key of a source is its program. -/
theorem Entered.direct_eq {maxDepth isExpr source}
    (hfree : CollisionFree hashed) (hmem : fingerprintBytes maxDepth isExpr source ∈ hashed)
    (h : Entered hashed (Program.keyOf maxDepth isExpr (Text.decode source).normalize) p) :
    direct maxDepth isExpr (.decode source) = .ok p := by
  obtain ⟨maxDepth', isExpr', source', hmem', hkey, hp⟩ := h
  have hbytes := hfree _ hmem _ hmem' hkey
  rw [← hp]
  exact direct_eq_of_fingerprint hbytes

end

/-- Whatever the caches and the store of an engine hold has been entered. -/
structure Engine.IsFilled (hashed : List (List UInt8)) (e : Engine) : Prop where
  programs : ∀ x ∈ e.programs.entries, Entered hashed x.1 x.2
  texts : ∀ x ∈ e.texts, TextEntered hashed x.1 x.2
  stored : ∀ s ∈ e.store, ∀ x ∈ s.texts, TextEntered hashed x.1 x.2

namespace Engine.IsFilled
variable {hashed hashed' : List (List UInt8)} {e : Engine}

theorem mono (h : e.IsFilled hashed) (hsub : ∀ x ∈ hashed, x ∈ hashed') : e.IsFilled hashed' where
  programs x hx := (h.programs x hx).mono hsub
  texts x hx := (h.texts x hx).mono hsub
  stored s hs x hx := (h.stored s hs x hx).mono hsub

theorem create (config : Config) {store}
    (h : ∀ s ∈ store, ∀ x ∈ s.texts, TextEntered hashed x.1 x.2) :
    (Engine.create config store).IsFilled hashed where
  programs x hx := by cases hx
  texts x hx := by cases hx
  stored := h

theorem keep (h : e.IsFilled hashed) {p} (hp : Entered hashed p.key p) :
    (e.keep p).IsFilled hashed where
  programs x hx := by
    rcases AdaptiveCache.mem_of_add hx with rfl | hx
    · exact hp
    · exact h.programs x hx
  texts x hx := by
    rcases TextTable.mem_of_put hx with rfl | hx
    · exact ⟨p, hp, rfl⟩
    · exact h.texts x hx
  stored s hs x hx := by
    obtain ⟨old, hold, rfl⟩ := Option.mem_map.1 hs
    rcases Store.mem_of_put hx with rfl | hx
    · exact ⟨p, hp, rfl⟩
    · exact h.stored old hold x hx

theorem looked (h : e.IsFilled hashed) (key : Digest) (stats : Stats) :
    Engine.IsFilled hashed { e with programs := (e.programs.get? key).1, stats } where
  programs x hx := h.programs x ((AdaptiveCache.get?_entries _ _).2 x hx)
  texts := h.texts
  stored := h.stored

theorem close (h : e.IsFilled hashed) : e.close.1.IsFilled hashed := by
  unfold Engine.close
  cases hs : e.store with
  | none =>
    refine ⟨fun x hx => ?_, fun x hx => ?_, fun s hs' => ?_⟩
    · cases hx
    · cases hx
    · exact h.stored s (hs ▸ hs')
  | some s =>
    refine ⟨fun x hx => ?_, fun x hx => ?_, fun s' hs' => ?_⟩
    · cases hx
    · cases hx
    · cases hs'
      exact h.stored s hs

end Engine.IsFilled

/-! ## What an engine answers -/

/-- One of the four counts goes up by one, and no other one changes. -/
def Stats.CountsOne (s s' : Stats) : Prop :=
  s' = { s with program := s.program + 1 } ∨ s' = { s with text := s.text + 1 } ∨
    s' = { s with disk := s.disk + 1 } ∨ s' = { s with misses := s.misses + 1 }

theorem Program.key_of_direct {maxDepth isExpr source p}
    (h : direct maxDepth isExpr source = .ok p) :
    p.key = Program.keyOf maxDepth isExpr source.normalize := by
  unfold direct at h
  obtain ⟨atoms, -, h⟩ := bind_ok h
  obtain ⟨code, -, h⟩ := bind_ok h
  cases h
  rfl

section
variable {hashed : List (List UInt8)} {e : Engine} {isExpr : Bool} {source : List UInt8}

theorem Entered.of_direct {maxDepth p} (hmem : fingerprintBytes maxDepth isExpr source ∈ hashed)
    (hp : direct maxDepth isExpr (.decode source) = .ok p) : Entered hashed p.key p :=
  ⟨maxDepth, isExpr, source, hmem, key_of_direct hp, hp⟩

theorem Engine.compile_cases (e : Engine) (isExpr : Bool) (source : Text) :
    let key := Program.keyOf e.config.maxDepth isExpr source.normalize
    let looked := fun stats => { e with programs := (e.programs.get? key).1, stats }
    ∃ stats, e.stats.CountsOne stats ∧
      ((∃ p, (e.programs.get? key).2 = some p ∧
          e.compile isExpr source = (looked stats, .ok p)) ∨
        (∃ f, direct e.config.maxDepth isExpr source = .error f ∧
          e.compile isExpr source = (looked stats, .error f)) ∨
        ∃ p, direct e.config.maxDepth isExpr source = .ok p ∧
          e.compile isExpr source = ((looked stats).keep p, .ok p)) := by
  intro key looked
  unfold Engine.compile Engine.compileNormal
  split
  · rename_i programs p hget
    refine ⟨_, .inl rfl, .inl ⟨p, congrArg Prod.snd hget, ?_⟩⟩
    simp only [looked, key, hget]
  · rename_i programs hget
    refine ⟨_, .inr (.inr (.inr rfl)), .inr ?_⟩
    simp only [build_normalize, looked, key, hget]
    cases hd : direct e.config.maxDepth isExpr source with
    | error f => exact .inl ⟨f, rfl, rfl⟩
    | ok p => exact .inr ⟨p, rfl, rfl⟩

theorem Engine.compile_countsOne (e : Engine) (isExpr : Bool) (source : Text) :
    e.stats.CountsOne (e.compile isExpr source).1.stats := by
  obtain ⟨stats, hcount, ⟨p, -, h⟩ | ⟨f, -, h⟩ | ⟨p, -, h⟩⟩ := e.compile_cases isExpr source <;>
  · rw [h]
    exact hcount

theorem Engine.IsFilled.compile (h : e.IsFilled hashed)
    (hmem : fingerprintBytes e.config.maxDepth isExpr source ∈ hashed) :
    (e.compile isExpr (.decode source)).1.IsFilled hashed := by
  obtain ⟨stats, -, ⟨p, -, hr⟩ | ⟨f, -, hr⟩ | ⟨p, hp, hr⟩⟩ := e.compile_cases isExpr (.decode source)
  · rw [hr]
    exact h.looked _ stats
  · rw [hr]
    exact h.looked _ stats
  · rw [hr]
    exact (h.looked _ stats).keep (.of_direct hmem hp)

theorem Engine.compile_eq_direct (h : ∀ x ∈ e.programs.entries, Entered hashed x.1 x.2)
    (hfree : CollisionFree hashed) (hmem : fingerprintBytes e.config.maxDepth isExpr source ∈ hashed) :
    (e.compile isExpr (.decode source)).2 = direct e.config.maxDepth isExpr (.decode source) := by
  obtain ⟨stats, -, ⟨p, hget, hr⟩ | ⟨f, hf, hr⟩ | ⟨p, hp, hr⟩⟩ :=
    e.compile_cases isExpr (.decode source)
  · have hentry := (AdaptiveCache.get?_entries _ _).1 p hget
    rw [hr, Entered.direct_eq hfree hmem (h _ hentry)]
  · rw [hr, hf]
  · rw [hr, hp]

theorem Engine.IsFilled.compile_eq_direct (h : e.IsFilled hashed) (hfree : CollisionFree hashed)
    (hmem : fingerprintBytes e.config.maxDepth isExpr source ∈ hashed) :
    (e.compile isExpr (.decode source)).2 = direct e.config.maxDepth isExpr (.decode source) :=
  Engine.compile_eq_direct h.programs hfree hmem

theorem Engine.wat_cases (e : Engine) (source : Text) :
    let key := Program.keyOf e.config.maxDepth false source.normalize
    (∃ text, (key, text) ∈ e.texts ∧ e.wat source =
        ({ e with stats := { e.stats with text := e.stats.text + 1 } }, .ok text)) ∨
      (∃ text, (∃ s ∈ e.store, (key, text) ∈ s.texts) ∧ e.wat source =
        ({ e with
            texts := e.texts.put key text
            stats := { e.stats with disk := e.stats.disk + 1 } }, .ok text)) ∨
      e.wat source =
        ((e.compile false source).1, (e.compile false source).2.map Program.wat) := by
  intro key
  unfold Engine.wat
  dsimp only
  cases hcached : e.cachedText? (Program.keyOf e.config.maxDepth false source.normalize) with
  | some text =>
    have hget := (Option.filter_eq_some_iff.1 hcached).1
    exact .inl ⟨text, AdaptiveCache.mem_of_lookup hget, rfl⟩
  | none =>
    cases hstored : e.store.bind (·.get? (Program.keyOf e.config.maxDepth false source.normalize)) with
    | some text =>
      obtain ⟨s, hs, hget⟩ := Option.bind_eq_some_iff.1 hstored
      unfold Store.get? at hget
      split at hget
      · cases hget
      · exact .inr (.inl ⟨text, ⟨s, hs, AdaptiveCache.mem_of_lookup hget⟩, rfl⟩)
    | none => exact .inr (.inr rfl)

theorem Engine.wat_countsOne (e : Engine) (source : Text) :
    e.stats.CountsOne (e.wat source).1.stats := by
  obtain ⟨text, -, h⟩ | ⟨text, -, h⟩ | h := e.wat_cases source
  · rw [h]
    exact .inr (.inl rfl)
  · rw [h]
    exact .inr (.inr (.inl rfl))
  · rw [h]
    exact e.compile_countsOne false source

theorem Engine.IsFilled.wat (h : e.IsFilled hashed)
    (hmem : fingerprintBytes e.config.maxDepth false source ∈ hashed) :
    (e.wat (.decode source)).1.IsFilled hashed := by
  obtain ⟨text, -, hr⟩ | ⟨text, ⟨s, hs, htext⟩, hr⟩ | hr := e.wat_cases (.decode source)
  · rw [hr]
    exact ⟨h.programs, h.texts, h.stored⟩
  · rw [hr]
    refine ⟨h.programs, fun x hx => ?_, h.stored⟩
    rcases TextTable.mem_of_put hx with rfl | hx
    · exact h.stored s hs _ htext
    · exact h.texts x hx
  · rw [hr]
    exact h.compile hmem

theorem Engine.IsFilled.wat_eq_direct (h : e.IsFilled hashed) (hfree : CollisionFree hashed)
    (hmem : fingerprintBytes e.config.maxDepth false source ∈ hashed) : (e.wat (.decode source)).2 =
      (direct e.config.maxDepth false (.decode source)).map Program.wat := by
  have hknown : ∀ text, TextEntered hashed
      (Program.keyOf e.config.maxDepth false (Text.decode source).normalize) text →
      .ok text = (direct e.config.maxDepth false (.decode source)).map Program.wat := by
    rintro text ⟨p, hp, rfl⟩
    rw [Entered.direct_eq hfree hmem hp]
    rfl
  obtain ⟨text, htext, hr⟩ | ⟨text, ⟨s, hs, htext⟩, hr⟩ | hr := e.wat_cases (.decode source)
  · rw [hr, hknown text (h.texts _ htext)]
  · rw [hr, hknown text (h.stored s hs _ htext)]
  · rw [hr, h.compile_eq_direct hfree hmem]

end

/-! ## What a fleet keeps -/

namespace Fleet
variable {f : Fleet} {hashed hashed' : List (List UInt8)} {n : Nat}

/-- All that the engines and the store hold was entered under its key. -/
structure IsFilled (hashed : List (List UInt8)) (f : Fleet) : Prop where
  engines : ∀ e ∈ f.engines, Engine.IsFilled hashed { e with store := f.store }
  stored : ∀ s ∈ f.store, ∀ x ∈ s.texts, TextEntered hashed x.1 x.2

theorem isFilled_start (hasStore : Bool) : (start hasStore).IsFilled [] where
  engines e he := by cases he
  stored s hs x hx := by
    cases hasStore with
    | false => cases hs
    | true =>
      cases hs
      cases hx

theorem IsFilled.mono (h : f.IsFilled hashed) (hsub : ∀ x ∈ hashed, x ∈ hashed') :
    f.IsFilled hashed' where
  engines e he := (h.engines e he).mono hsub
  stored s hs x hx := (h.stored s hs x hx).mono hsub

theorem IsFilled.engine? (h : f.IsFilled hashed) {e} (he : f.engine? n = some e) :
    e.IsFilled hashed := by
  obtain ⟨own, hown, rfl⟩ := Option.map_eq_some_iff.1 he
  exact h.engines own (mem_of_getElem? hown)

/-- If one engine keeps to what has been entered, so does the fleet: all others see the store that this
one leaves, and have their own caches. -/
theorem IsFilled.act (h : f.IsFilled hashed) (action : Engine → Engine)
    (haction : ∀ e, f.engine? n = some e → (action e).IsFilled hashed) :
    (f.act n action).IsFilled hashed := by
  unfold Fleet.act
  cases he : f.engine? n with
  | none => exact h
  | some e =>
    have hnew := haction e he
    refine ⟨fun e' he' => ?_, hnew.stored⟩
    rcases mem_or_eq_of_mem_set he' with he' | rfl
    · have hold := h.engines e' he'
      exact ⟨hold.programs, hold.texts, hnew.stored⟩
    · exact hnew

theorem IsFilled.after (h : f.IsFilled hashed) (event : Event) :
    (f.after event).IsFilled (hashed ++ event.hashed f) := by
  have hmono := h.mono (fun x hx => mem_append_left (event.hashed f) hx)
  cases event with
  | launch config =>
    refine ⟨fun e he => ?_, hmono.stored⟩
    rcases mem_append.1 he with he | he
    · exact hmono.engines e he
    · cases mem_singleton.1 he
      exact .create config hmono.stored
  | compile n isExpr source =>
    refine hmono.act _ fun e he => (hmono.engine? he).compile (mem_append_right _ ?_)
    simp [Event.hashed, he]
  | wat n source =>
    refine hmono.act _ fun e he => (hmono.engine? he).wat (mem_append_right _ ?_)
    simp [Event.hashed, he]
  | register n name host =>
    refine hmono.act _ fun e he => ?_
    have hold := hmono.engine? he
    exact ⟨hold.programs, hold.texts, hold.stored⟩
  | run n p canceled args => exact hmono
  | close n => exact hmono.act _ fun e he => (hmono.engine? he).close
  | reopen n config =>
    -- only what is stored outlives the engine
    refine hmono.act _ fun e he => .create config fun s hs => ?_
    obtain ⟨old, hold, rfl⟩ := Option.mem_map.1 hs
    exact (hmono.engine? he).stored old hold
  | losePrograms n kept =>
    refine hmono.act _ fun e he => ?_
    have hold := hmono.engine? he
    exact ⟨fun x hx => hold.programs x (AdaptiveCache.mem_of_keeping hx), hold.texts, hold.stored⟩
  | loseTexts n kept =>
    refine hmono.act _ fun e he => ?_
    have hold := hmono.engine? he
    exact ⟨hold.programs, fun x hx => hold.texts x (mem_of_mem_filter hx), hold.stored⟩
  | loseStored kept =>
    have hstored : ∀ s ∈ (f.after (.loseStored kept)).store, ∀ x ∈ s.texts,
        TextEntered (hashed ++ Event.hashed f (.loseStored kept)) x.1 x.2 := by
      intro s hs x hx
      obtain ⟨old, hold, rfl⟩ := Option.mem_map.1 hs
      exact hmono.stored old hold x (mem_of_mem_filter hx)
    refine ⟨fun e he => ?_, hstored⟩
    have hold := hmono.engines e he
    exact ⟨hold.programs, hold.texts, hstored⟩

theorem IsFilled.afterAll (h : f.IsFilled hashed) (events : List Event) :
    (f.afterAll events).IsFilled (hashed ++ f.hashed events) := by
  induction events generalizing f hashed with
  | nil => simpa [Fleet.afterAll, Fleet.hashed] using h
  | cons event events ih =>
    have hrest := ih (h.after event)
    rwa [append_assoc] at hrest

end Fleet

/-- What has happened before, to whichever engines with whichever settings, does not show in the answer
to a request but in the count of where it came from: as long as no two fingerprints have met with the same
digest, compiling and asking for the text give what `Program.direct` gives under the nesting limit of the
engine that is asked. -/
theorem cached_answers_direct (hasStore : Bool) (history : List Event) (n : Nat) (e : Engine)
    (he : ((Fleet.start hasStore).afterAll history).engine? n = some e) (source : List UInt8) :
    (∀ isExpr,
      (CollisionFree ((Fleet.start hasStore).hashed (history ++ [.compile n isExpr source])) →
        (e.compile isExpr (.decode source)).2 =
          Program.direct e.config.maxDepth isExpr (.decode source)) ∧
      e.stats.CountsOne (e.compile isExpr (.decode source)).1.stats) ∧
    (CollisionFree ((Fleet.start hasStore).hashed (history ++ [.wat n source])) →
      (e.wat (.decode source)).2 =
        (Program.direct e.config.maxDepth false (.decode source)).map Program.wat) ∧
    e.stats.CountsOne (e.wat (.decode source)).1.stats := by
  have hfilled : e.IsFilled ((Fleet.start hasStore).hashed history) :=
    ((Fleet.isFilled_start hasStore).afterAll history).engine? he
  refine ⟨fun isExpr => ⟨fun hfree => ?_, e.compile_countsOne isExpr _⟩, fun hfree => ?_,
    e.wat_countsOne _⟩
  · refine (hfilled.mono fun x hx => ?_).compile_eq_direct hfree ?_
    · simp [Fleet.hashed_append, hx]
    · simp [Fleet.hashed_append, Fleet.hashed, Event.hashed, he]
  · refine (hfilled.mono fun x hx => ?_).wat_eq_direct hfree ?_
    · simp [Fleet.hashed_append, hx]
    · simp [Fleet.hashed_append, Fleet.hashed, Event.hashed, he]

/-- One engine compiles and is closed; another one, that has given way to one that verifies nothing, is
asked for the text. -/
theorem cached_answers_direct_reopened :
    let source := [97, 32, 43, 32, 49]
    let settings := { Config.standard with verify := false, cacheSize := 1 }
    let history := [.launch .standard, .launch .standard, .compile 0 false source, .close 0,
      .reopen 1 settings]
    ∃ e, ((Fleet.start true).afterAll history).engine? 1 = some e ∧
      CollisionFree ((Fleet.start true).hashed (history ++ [.wat 1 source])) ∧
      (e.wat (.decode source)).2 = .ok "local.get $a\ni32.const 1\ni32.add\n" ∧
      e.stats.CountsOne (e.wat (.decode source)).1.stats := by
  intro source settings history
  have hsame : (Fleet.start true).hashed (history ++ [.wat 1 source]) =
      List.replicate 2 (fingerprintBytes defaultLimit false source) := rfl
  have hfree : CollisionFree ((Fleet.start true).hashed (history ++ [.wat 1 source])) := by
    intro x hx y hy _
    rw [hsame] at hx hy
    rw [List.eq_of_mem_replicate hx, List.eq_of_mem_replicate hy]
  have hdirect : (Program.direct defaultLimit false (.decode source)).map Program.wat =
      .ok "local.get $a\ni32.const 1\ni32.add\n" := by
    decide +kernel
  have hanswer := (cached_answers_direct true history 1 _ rfl source).2
  exact ⟨_, rfl, hfree, (hanswer.1 hfree).trans hdirect, hanswer.2⟩

end WatScript
