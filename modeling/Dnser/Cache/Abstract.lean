import Dnser.Cache.Store
import Dnser.Lib.TimedMap

/-!
# What the cache is for

The cache without its tables: a map from keys to the last response that was accepted for
them, each good for as long as its records allow. No shards, no capacity, no reaper; a
response is forgotten only when a later one takes its place.
-/

namespace Dnser

namespace AbstractCache

/-- The time to live and the `MINIMUM` of the first SOA record. -/
def firstSoa : List ResourceRecord → Option (UInt32 × UInt32)
  | [] => none
  | rr :: rrs =>
      match rr.rdata with
      | .soa _ _ _ _ _ _ minimum => some (rr.ttl, minimum)
      | _ => firstSoa rrs

/-- The effective TTL: the smallest of the answers for a positive response, what the SOA says
and the cap allows for a negative one. -/
def effectiveTtl (cap : UInt32) (r : Message) : Option UInt32 :=
  match r.header.rcode, r.answers with
  | .ok .noError, a :: as => some (as.foldl (fun t rr => min t rr.ttl) a.ttl)
  | .ok .noError, [] => (firstSoa r.authority).map fun s => min (min s.1 s.2) cap
  | .ok .nxDomain, _ => (firstSoa r.authority).map fun s => min (min s.1 s.2) cap
  | _, _ => none

/-- The key and the lifetime in seconds of a response that is accepted. -/
def accepted (cap : UInt32) (r : Message) : Option (CacheKey × UInt32) :=
  match r.questions, effectiveTtl cap r with
  | [q], some ttl =>
      if r.header.flags &&& Header.TC = 0 ∧ 0 < ttl then some (CacheKey.fromQuestion q, ttl)
      else none
  | _, _ => none

/-- The map after a call at `now`: only accepted insertions count. -/
def step (cap : UInt32) (m : TimedMap CacheKey Message) :
    Nat × Cache.Op → TimedMap CacheKey Message
  | (now, .insert _ r) =>
      match accepted cap r with
      | some (k, ttl) => m.put k ⟨r, now, now + ttl.toNat * nanosPerSec⟩
      | none => m
  | _ => m

/-- The map after a sequence of calls, starting from nothing. -/
def run (cap : UInt32) (ops : List (Nat × Cache.Op)) : TimedMap CacheKey Message :=
  ops.foldl (step cap) TimedMap.empty

/-- A record with its TTL reduced by `secs`, stopping at zero. OPT records have no TTL, and
nothing is said about that field of theirs. -/
structure RecordAged (secs : Nat) (rr rr' : ResourceRecord) : Prop where
  name : rr'.name = rr.name
  cls : rr'.cls = rr.cls
  rdata : rr'.rdata = rr.rdata
  ttl : rr.isOpt = false → rr'.ttl.toNat = rr.ttl.toNat - secs

/-- A response with its TTLs reduced by `secs`, and otherwise unchanged. -/
structure Aged (secs : Nat) (r r' : Message) : Prop where
  header : r'.header = r.header
  questions : r'.questions = r.questions
  answers : List.Forall₂ (RecordAged secs) r.answers r'.answers
  authority : List.Forall₂ (RecordAged secs) r.authority r'.authority
  additional : List.Forall₂ (RecordAged secs) r.additional r'.additional

end AbstractCache

end Dnser
