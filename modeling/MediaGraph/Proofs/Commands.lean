import MediaGraph.Schedule
import MediaGraph.Proofs.Arguments
import MediaGraph.Proofs.Listings
import MediaGraph.Proofs.Plans

/-! The argument that carries a schedule.
A schedule hands its text over as one scalar, and a scalar that stands alone is taken as
encoded already. So the text goes through the outer quoting unharmed, but the inner reader
cuts it at the colons and resolves the backslashes that its own pieces bring along. -/
namespace MediaGraph

namespace Argument

theorem length_le_of_mem_values {s value : List Char} (member : value ∈ values s) :
    value.length ≤ s.length := by
  fun_induction values s generalizing value <;> grind

/-- A text is its own one value exactly where nothing in it means anything to the reader. -/
theorem values_eq_singleton {s : List Char} : values s = [s] ↔ ':' ∉ s ∧ '\\' ∉ s := by
  refine ⟨fun same => ?_,fun plain => ?_⟩
  · induction s with
    | nil => simp
    | cons c rest ih =>
      by_cases backslash : c = '\\'
      · subst backslash
        cases rest with
        | nil => simp [values] at same
        | cons d rest =>
          -- the value has lost its first character, so it cannot be as long as the text
          have short : ∀ value ∈ values rest, value.length ≤ rest.length :=
            fun _ => length_le_of_mem_values
          cases pieces : values rest with
          | nil => exact absurd pieces (values_ne_nil rest)
          | cons piece more =>
            have lost : d :: piece = '\\' :: d :: rest := by
              simp only [values,pieces,List.cons.injEq] at same
              simp [same.1]
            have shorter := short piece (by simp [pieces])
            have := congrArg List.length lost
            simp at this
            omega
      · by_cases colon : c = ':'
        · subst colon
          simp [values] at same
        · cases pieces : values rest with
          | nil => exact absurd pieces (values_ne_nil rest)
          | cons piece more =>
            have later : values rest = [rest] := by
              simpa [values,pieces,colon,backslash] using same
            simpa [Ne.symm colon,Ne.symm backslash] using ih later
  · simpa [onto,values] using readsAs_self plain.1 plain.2 []

theorem split_eq_singleton {s : String} : split s = [s] ↔ ':' ∉ s.toList ∧ '\\' ∉ s.toList := by
  rw [← values_eq_singleton,split,List.map_eq_singleton_iff]
  constructor
  · rintro ⟨value,only,same⟩
    rw [only,← same,String.toList_ofList]
  · exact fun only => ⟨s.toList,only,String.ofList_toList⟩

theorem mem_intercalate_iff {α : Type} {x : α} {mark : List α} (free : x ∉ mark)
    {pieces : List (List α)} : x ∈ mark.intercalate pieces ↔ ∃ piece ∈ pieces, x ∈ piece := by
  induction pieces with
  | nil => simp
  | cons piece more ih =>
    by_cases last : more = []
    · simp [last]
    · rw [List.intercalate_cons_of_ne_nil last]
      simp [free,ih]

end Argument

open Argument Catalog.Listing

/-- The texts of a command as they were given, its target by name. -/
def Command.pieces (s : Session) (c : Command) : List String :=
  c.flags ++ (c.target.text s).toOption.toList ++ [c.name,c.argument]

def Interval.pieces (s : Session) (interval : Interval) : List String :=
  interval.start :: interval.stop.toList ++ interval.commands.flatMap (Command.pieces s)

namespace Schedule

def pieces (s : Session) (schedule : Schedule) : List String :=
  schedule.intervals.flatMap (Interval.pieces s)

def signs : List Char := [' ','-','[',']','+',',',';']

section Text
variable {s : Session} {x : Char}

theorem not_mem_of_signs {marks : List Char} (free : x ∉ signs) (listed : marks ⊆ signs) :
    x ∉ marks := fun member => free (listed member)

theorem mem_commandText {c : Command} {text : String} (free : x ∉ signs)
    (shown : c.text s = .ok text) :
    x ∈ text.toList ↔ ∃ piece ∈ c.pieces s, x ∈ piece.toList := by
  simp only [signs,List.mem_cons,List.not_mem_nil,or_false,not_or] at free
  cases target : c.target.text s with
  | error e =>
    simp only [Command.text,target] at shown
    cases shown
  | ok name =>
    simp only [Command.text,target] at shown
    cases shown
    by_cases flags : c.flags = [] <;> by_cases argument : c.argument = "" <;>
      simp [Command.pieces,Except.toOption,target,flags,argument,free,mem_intercalate_iff,
        or_and_right,exists_or]

theorem mem_time {interval : Interval} (free : x ∉ signs) :
    x ∈ interval.time.toList ↔
      ∃ piece ∈ interval.start :: interval.stop.toList, x ∈ piece.toList := by
  have dash : x ∉ ['-'] := not_mem_of_signs free (by decide)
  rw [List.mem_singleton] at dash
  cases stop : interval.stop <;> simp [Interval.time,stop,dash]

theorem mem_texts {α : Type} {shows : α → Except GraphError String} {pieces : α → List String}
    {items : List α} {texts : List String} (shown : items.mapM shows = .ok texts)
    (each : ∀ item text, shows item = .ok text →
      (x ∈ text.toList ↔ ∃ piece ∈ pieces item, x ∈ piece.toList)) :
    (∃ text ∈ texts, x ∈ text.toList) ↔ ∃ piece ∈ items.flatMap pieces, x ∈ piece.toList := by
  induction items generalizing texts with
  | nil =>
    cases shown
    simp
  | cons item rest ih =>
    rw [List.mapM_cons,bind_ok] at shown
    obtain ⟨text,first,later⟩ := shown
    obtain ⟨more,others,last⟩ := bind_ok.mp later
    cases last
    simp [each item text first,ih others,or_and_right,exists_or]

theorem mem_intervalText {interval : Interval} {text : String} (free : x ∉ signs)
    (shown : interval.text s = .ok text) :
    x ∈ text.toList ↔ ∃ piece ∈ interval.pieces s, x ∈ piece.toList := by
  obtain ⟨texts,commands,last⟩ := bind_ok.mp shown
  cases last
  have inside := mem_texts commands fun _ _ => mem_commandText free
  have comma : x ∉ [',',' '] := not_mem_of_signs free (by decide)
  have blank : x ∉ [' '] := not_mem_of_signs free (by decide)
  have joined : x ∈ (", ".intercalate texts).toList ↔ ∃ text ∈ texts, x ∈ text.toList := by
    simp [mem_intercalate_iff comma]
  rw [String.toList_append,String.toList_append,List.mem_append,List.mem_append,mem_time free,
    joined,inside,Interval.pieces]
  simp only [List.mem_append,or_and_right,exists_or]
  simp [blank]

theorem mem_text {schedule : Schedule} {text : String} (free : x ∉ signs)
    (shown : schedule.text s = .ok text) :
    x ∈ text.toList ↔ ∃ piece ∈ schedule.pieces s, x ∈ piece.toList := by
  obtain ⟨texts,intervals,last⟩ := bind_ok.mp shown
  cases last
  have semicolon : x ∉ [';'] := not_mem_of_signs free (by decide)
  rw [pieces,← mem_texts intervals fun _ _ => mem_intervalText free]
  simp [mem_intercalate_iff semicolon]

theorem toOperation_ok {schedule : Schedule} {media : Media} {op : Operation} :
    schedule.toOperation s media = .ok op ↔ ∃ name text,
      Helper.commands.filter media "command list" = .ok name ∧ schedule.text s = .ok text ∧
        op = ⟨name,none,text,.fixed [media]⟩ := by
  simp only [toOperation,bind_ok,pure,Except.pure,Except.ok.injEq,@eq_comm _ _ op]
  simp [Operation.named,Operation.withArguments,Operation.withOutputs,encode]

end Text

/-- The operation that a schedule becomes keeps the schedule's text through the outer
quoting. The inner reader takes that text for one value where no piece of the schedule has
a colon or a backslash, and for something else wherever one has. -/
theorem toOperation_decoded {schedule : Schedule} {s : Session} {media : Media} {op : Operation}
    (made : schedule.toOperation s media = .ok op) :
    ∃ text, schedule.text s = .ok text ∧ unquoteText (quoteText op.args) = text ∧
      (split (unquoteText (quoteText op.args)) = [text] ↔
        ∀ piece ∈ schedule.pieces s, ':' ∉ piece.toList ∧ '\\' ∉ piece.toList) := by
  obtain ⟨_,text,_,shown,rfl⟩ := toOperation_ok.mp made
  refine ⟨text,shown,unquoteText_quoteText text,?_⟩
  rw [unquoteText_quoteText,split_eq_singleton,mem_text (by decide) shown,
    mem_text (by decide) shown]
  grind

def titled : List ((reply : Reply) × Call reply) :=
  [⟨_,.start []⟩,⟨_,.extend ⟨0,0⟩ ((Operation.named "drawtext").withId "title")⟩]

theorem toOperation_decoded_plain :
    let schedule : Schedule :=
      ⟨[⟨"1",some "2.5",[⟨["enter","leave"],.operation ⟨0,0⟩,"reinit","text='a, b'"⟩,
        ⟨[],.name "volume","volume","0.5"⟩]⟩,⟨"4",none,[⟨[],.name "hue","s","0"⟩]⟩]⟩
    let text := "1-2.5 [enter+leave] drawtext@title reinit text='a, b', volume volume 0.5;4 hue s 0"
    let op : Operation := ⟨"sendcmd",none,text,.fixed [.video]⟩
    ∃ a, Account.run? titled (.new 0 .empty) = some a ∧
      schedule.toOperation a.session .video = .ok op ∧
      split (unquoteText (quoteText op.args)) = [text] := by
  intro schedule text op
  have runs : (Account.run? titled (.new 0 .empty)).any (fun a : Account => decide
      (schedule.text a.session = .ok text ∧ ∀ piece ∈ schedule.pieces a.session,
        ':' ∉ piece.toList ∧ '\\' ∉ piece.toList)) = true := by decide +kernel
  obtain ⟨a,ran,facts⟩ := (Option.any_eq_true ..).mp runs
  obtain ⟨shown,plain⟩ := of_decide_eq_true facts
  have made : schedule.toOperation a.session .video = .ok op :=
    toOperation_ok.mpr ⟨_,_,rfl,shown,rfl⟩
  obtain ⟨_,also,_,one⟩ := toOperation_decoded made
  have same := Except.ok.inj (shown.symm.trans also)
  exact ⟨a,ran,made,same ▸ one.mpr plain⟩

/-- An option's own colon cuts the text of the schedule in two. -/
theorem toOperation_cut :
    ∃ (schedule : Schedule) (op : Operation),
      schedule.toOperation (.new 0 .empty) .video = .ok op ∧
        schedule.text (.new 0 .empty) = .ok "0 drawtext reinit text=a:b" ∧
        split (unquoteText (quoteText op.args)) = ["0 drawtext reinit text=a","b"] := by
  refine ⟨⟨[⟨"0",none,[⟨[],.name "drawtext","reinit","text=a:b"⟩]⟩]⟩,
    ⟨"sendcmd",none,"0 drawtext reinit text=a:b",.fixed [.video]⟩,?_,rfl,?_⟩
  · exact toOperation_ok.mpr ⟨_,_,rfl,rfl,rfl⟩
  · decide

end Schedule
end MediaGraph
