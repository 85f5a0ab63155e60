/-
Events: what the library reports of its work, each with a severity and a text.
-/
import ModelCount.Literal

namespace ModelCount

/-- how much detail a report gives -/
inductive Severity where
  | debug
  | trace
  deriving DecidableEq, Repr

def Severity.name : Severity → String
  | debug => "DEBUG"
  | trace => "TRACE"

inductive Event where
  /-- a long clause went into the literal pool -/
  | clauseAdded (id : ClauseId) (offset : Nat)
  /-- a formula was loaded -/
  | loaded (vars clauses words : Nat)
  /-- a long clause may be satisfied from outside the component, so its visit was undone -/
  | clauseExcluded (id : ClauseId) (lit : Lit)
  /-- the count of a component was found in the store -/
  | componentHit (vars : Nat)
  /-- a component was pushed -/
  | componentNew (id : EntryId) (vars clauses : Nat)
  /-- a super-component was split -/
  | split (id : EntryId) (vars pushed hits : Nat)
  /-- the bucket table was rebuilt -/
  | rehashed (before after : Nat)
  /-- an eviction round ended -/
  | roundDone (erased deletable live bytes : Nat)
  /-- eviction ended after erasing something -/
  | evicted (erased bytes : Nat)
  deriving DecidableEq, Repr

namespace Event

def severity : Event → Severity
  | clauseAdded .. | clauseExcluded .. | componentHit .. | componentNew .. => .trace
  | loaded .. | split .. | rehashed .. | roundDone .. | evicted .. => .debug

def text : Event → String
  | clauseAdded id offset => s!"add_long_clause: {id.text} at offset {offset}"
  | loaded vars clauses words =>
    s!"initialize: {vars} variables, {clauses} long clauses, {words} link words"
  | clauseExcluded id lit => s!"search_clause: {id.text} satisfied through {lit.text}, rolling back"
  | componentHit vars => s!"record_remaining_comps_for: cache hit, {vars} variables"
  | componentNew id vars clauses =>
    s!"record_remaining_comps_for: new component {id.text} with {vars} variables, {clauses} clauses"
  | split id vars pushed hits =>
    s!"record_remaining_comps_for: super {id.text} ({vars} vars) -> {pushed} new, {hits} cached"
  | rehashed before after => s!"rehash_table: {before} -> {after} buckets"
  | roundDone erased deletable live bytes =>
    s!"delete_entries: erased {erased} of {deletable} deletable entries, {live} left, {bytes} bytes"
  | evicted erased bytes =>
    s!"evict_cache_if_needed: erased {erased} entries, {bytes} bytes in use"

/-- the line of the log that reports the event -/
def line (e : Event) : String := s!"{e.severity.name} {e.text}"

end Event

end ModelCount
