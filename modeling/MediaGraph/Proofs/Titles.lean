import MediaGraph.Proofs.Renaming
import MediaGraph.Proofs.Traces

/-! The names that callers choose.
While a graph is open a chosen name stands for one pipe, if callers choose different ones and none
that the graph could make up. -/
namespace MediaGraph

structure Title where
  name : String
  pipe : PipeId
  /-- The name is the specifier of an input stream, which can be asked for again. -/
  stream : Bool
  deriving DecidableEq

def Event.title? : Event → Option Title
  | ⟨_,.namedPipe name,_,pipe⟩ => some ⟨name,pipe,false⟩
  | ⟨_,.inputStream spec,_,pipe⟩ => some ⟨spec,pipe,true⟩
  | ⟨_,.rename pipe name,_,_⟩ => some ⟨name,pipe,false⟩
  | _ => none

def titles (events : List Event) : List Title := events.filterMap Event.title?

/-- No name is one that the graph makes up, and none is chosen twice. -/
structure Chosen (list : List Title) : Prop where
  names : ∀ title ∈ list, ¬ Session.Generated title.name
  distinct : list.Pairwise fun x y => x.name = y.name → x.stream = true ∧ y.stream = true

theorem Chosen.of_append {list more : List Title} (chosen : Chosen (list ++ more)) : Chosen list where
  names title member := chosen.names title (List.mem_append_left more member)
  distinct := (List.pairwise_append.mp chosen.distinct).1

theorem Chosen.last {list : List Title} {title other : Title} (chosen : Chosen (list ++ [title]))
    (member : other ∈ list) (same : other.name = title.name) :
    other.stream = true ∧ title.stream = true :=
  (List.pairwise_append.mp chosen.distinct).2.2 other member title (by simp) same

namespace Session

structure Titled (s : Session) (list : List Title) : Prop where
  unique : s.Unique
  owned : ∀ p, p < s.pipes.size → ¬ Generated (s.pipe p).name →
    ∃ title ∈ list, title.name = (s.pipe p).name ∧ title.pipe.index = p
  streams : ∀ title ∈ list, title.stream = true → s.streams.lookup title.name ≠ none

section Choosing
variable {s t : Session} {list : List Title} {title : Title} {put more : List (Nat × Nat)}
  {took turns : List Nat}

theorem Titled.of_new (serial : Nat) (catalog : Catalog) : Titled (new serial catalog) [] := by
  have size : (new serial catalog).pipes.size = 0 := rfl
  refine ⟨⟨?_,?_⟩,?_,by simp⟩ <;> simp [size]

theorem Titled.of_tidy (titled : s.Titled list) (tidy : Tidy s t []) : t.Titled list where
  unique := tidy.unique titled.unique
  owned p inside chosen := by
    rcases tidy.origin p inside chosen with ⟨before,same⟩ | ⟨_,listed⟩
    · rw [← same] at chosen ⊢
      exact titled.owned p before chosen
    · simp at listed
  streams title member stream := by
    rw [tidy.streams]
    exact titled.streams title member stream

theorem Titled.free (titled : s.Titled list) (chosen : Chosen (list ++ [title]))
    (new : title.stream = false ∨ s.streams.lookup title.name = none) {p : Nat}
    (inside : p < s.pipes.size) : (s.pipe p).name ≠ title.name := by
  intro same
  have made : ¬ Generated (s.pipe p).name := by
    rw [same]
    exact chosen.names title (by simp)
  obtain ⟨other,member,name,_⟩ := titled.owned p inside made
  have equal := name.trans same
  obtain ⟨asked,again⟩ := chosen.last member equal
  rcases new with once | unknown
  · simp [again] at once
  · exact titled.streams other member asked (equal ▸ unknown)

theorem Titled.given (titled : s.Titled list) (unique : t.Unique)
    (named : (t.pipe title.pipe.index).name = title.name)
    (size : ∀ p, p < t.pipes.size → p ≠ title.pipe.index → p < s.pipes.size)
    (names : ∀ p, p ≠ title.pipe.index → (t.pipe p).name = (s.pipe p).name)
    (streams : ∀ spec, s.streams.lookup spec ≠ none → t.streams.lookup spec ≠ none)
    (asked : title.stream = true → t.streams.lookup title.name ≠ none) :
    t.Titled (list ++ [title]) where
  unique := unique
  owned p inside chosen := by
    by_cases last : p = title.pipe.index
    · exact ⟨title,by simp,by rw [last,named],last.symm⟩
    · rw [names p last] at chosen ⊢
      obtain ⟨other,member,how⟩ := titled.owned p (size p inside last) chosen
      exact ⟨other,by simp [member],how⟩
  streams other member stream := by
    rcases List.mem_append.mp member with old | last
    · exact streams _ (titled.streams other old stream)
    · rw [List.mem_singleton.mp last] at stream ⊢
      exact asked stream

theorem Titled.push {pipe : Pipe} (titled : s.Titled list) (chosen : Chosen (list ++ [title]))
    (new : title.stream = false ∨ s.streams.lookup title.name = none)
    (pipes : t.pipes = s.pipes.push pipe) (counter : t.counter = s.counter)
    (name : pipe.name = title.name) (index : title.pipe.index = s.pipes.size)
    (streams : ∀ spec, s.streams.lookup spec ≠ none → t.streams.lookup spec ≠ none)
    (asked : title.stream = true → t.streams.lookup title.name ≠ none) :
    t.Titled (list ++ [title]) := by
  have found (q : Nat) : t.pipe q = if q = s.pipes.size then pipe else s.pipe q := by
    rw [Session.pipe,pipes]
    exact getD_push ..
  have unique : t.Unique := by
    refine titled.unique.push pipes counter ?_ fun q inside => ?_
    · rw [name]
      exact chosen.names title (by simp)
    · rw [name]
      exact titled.free chosen new inside
  refine titled.given unique ?_ (fun p inside other => ?_) (fun p other => ?_) streams asked
  · rw [found,if_pos index,name]
  · rw [pipes,Array.size_push] at inside
    omega
  · rw [found,if_neg (index ▸ other)]

end Choosing
end Session

namespace Account
open Session
variable {catalog : Catalog} {events : List Event} {a : Account}

theorem titles_append (events : List Event) (event : Event) :
    titles (events ++ [event]) = titles events ++ event.title?.toList := by
  cases found : event.title? <;> simp [titles,found]

theorem titled_after {list : List Title} {reply : Reply} {c : Call reply} {answer : reply.Value}
    {t : Session} (titled : a.session.Titled list) (consistent : a.Consistent) (known : a.Knows c)
    (answered : perform c a.session = .ok answer t) (isOpen : t.completed = false)
    (chosen : Chosen (list ++ (Event.title? ⟨reply,c,a.session,answer⟩).toList)) :
    t.Titled (list ++ (Event.title? ⟨reply,c,a.session,answer⟩).toList) := by
  have labelled := consistent.enclosed (consistent.before known answered isOpen)
  by_cases plain : c.Plain
  · obtain ⟨plains,_⟩ := perform_plain plain consistent.kept (known.issued consistent) answered
    have untitled : Event.title? ⟨reply,c,a.session,answer⟩ = none := by
      cases c <;> first | rfl | exact plain.elim
    rw [untitled,Option.toList_none,List.append_nil]
    exact titled.of_tidy (Plains.tidy plains consistent.kept labelled)
  cases c with
  | namedPipe name =>
    obtain ⟨_,rfl,rfl⟩ := namedPipe_ok.mp answered
    exact titled.push chosen (.inl rfl) rfl rfl rfl rfl (fun _ asked => asked) nofun
  | inputStream spec =>
    obtain ⟨_,⟨p,found,rfl,rfl⟩ | ⟨unknown,rfl,rfl⟩⟩ := inputStream_ok.mp answered
    · refine ⟨titled.unique,fun q inside made => ?_,fun title member stream => ?_⟩
      · obtain ⟨title,member,how⟩ := titled.owned q inside made
        exact ⟨title,List.mem_append_left _ member,how⟩
      · rcases List.mem_append.mp member with old | last
        · exact titled.streams title old stream
        · obtain rfl := List.mem_singleton.mp last
          simp [found]
    · refine titled.push chosen (.inr unknown) rfl rfl rfl rfl (fun other asked => ?_) fun _ => ?_
      · change List.lookup other ((spec,a.session.pipes.size) :: a.session.streams) ≠ none
        rw [List.lookup_cons]
        split
        · simp
        · exact asked
      · change List.lookup spec ((spec,a.session.pipes.size) :: a.session.streams) ≠ none
        simp
  | rename id name =>
    obtain ⟨inside,_,rfl⟩ := rename_ok answered
    have pipes (q : Nat) : (a.session.retitle id.index name).pipe q = _ := pipe_modifyPipe ..
    have size : (a.session.retitle id.index name).pipes.size = a.session.pipes.size :=
      Array.size_modify
    have free (q : Nat) (bound : q < a.session.pipes.size) : (a.session.pipe q).name ≠ name :=
      titled.free chosen (.inl rfl) bound
    refine titled.given (t := a.session.retitle id.index name)
      (titled.unique.retitle inside (chosen.names ⟨name,id,false⟩ (by simp [Event.title?]))
        fun q bound same => absurd same (free q bound)) ?_ (fun p bound _ => size ▸ bound) (fun p other => ?_)
      (fun _ asked => asked) nofun
    · rw [pipes,if_pos ⟨rfl,inside⟩]
    · rw [pipes,if_neg fun both => other both.1]
  | connect id outputs =>
    obtain ⟨_,_,_,_,_,_,_,_,_,rfl⟩ := connect_ok.mp answered
    obtain ⟨table,size,record⟩ := putOutputs_eq a.session id.index (outputs.map PipeId.index)
    have names (p : Nat) : ((a.session.putOutputs id.index (outputs.map PipeId.index)).pipe p).name =
        (a.session.pipe p).name := by
      rw [pipe_putOutputs]
      split <;> rfl
    have renames : Renames a.session (a.session.putOutputs id.index (outputs.map PipeId.index)) :=
      .keep (by rw [record]; exact size) (by rw [record]) names
    rw [show Event.title? ⟨_,Call.connect id outputs,a.session,answer⟩ = none from rfl,
      Option.toList_none,List.append_nil]
    exact titled.of_tidy ⟨renames.unique,fun p => renames.origin labelled,by rw [record]⟩
  | complete exports =>
    obtain ⟨_,_,_,_,rfl⟩ := complete_ok.mp answered
    cases isOpen
  | _ => exact absurd trivial plain

/-- While a graph is open, a chosen name stands for the pipe that it was chosen for. -/
theorem Trace.titled (trace : Trace catalog events a) (isOpen : a.session.completed = false)
    (chosen : Chosen (titles events)) : a.session.Titled (titles events) := by
  induction trace with
  | new serial => exact .of_new serial catalog
  | @call events a reply c answer t trace known answered ih =>
    rw [titles_append] at chosen ⊢
    have consistent := trace.reached.consistent
    exact titled_after (ih (consistent.before known answered isOpen) chosen.of_append) consistent known
      answered isOpen chosen

end Account
end MediaGraph
