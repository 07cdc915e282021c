import NoteVault.Registry

/-!
The document types of a vault for project work. All have an identity, a title, projects, tags, three
dates and a summary.
-/
namespace NoteVault.Standard

def referenceFields : List String := ["projects"]

/-- The keys at the end of every header. -/
def lastKeys : List String := ["projects", "tags", "created", "updated", "summarisedAt", "summary"]

/-- The fields that every document type begins with. -/
def firstFields (type : String) : List Field :=
  [.literal "type" type "Document type discriminator",
   .string "id" 1 false ("Unique " ++ type ++ " identifier"),
   .string "title" 1 false "Human-readable title"]

/-- The fields that every document type ends with. -/
def lastFields : List Field :=
  [.array "projects" false (some []) "Parent project IDs this document belongs to",
   .array "tags" false (some []) "Freeform classification tags",
   .optionalDate "created" "ISO date when document was created",
   .optionalDate "updated" "ISO date of last update",
   .optionalDate "summarisedAt" "ISO date the summary was last written",
   .string "summary" 0 true "Short generated summary of the body"]

/-- A document type of its own fields and its own keys, given in the order of a header. -/
structure Definition where
  type : String
  description : String
  fields : List Field
  keys : List String

def ideaStates : List String := ["draft", "proposed", "accepted", "rejected", "deferred"]

def levels : List String := ["low", "medium", "high", "critical"]

def definitions : List Definition :=
  [⟨"project", "A body of work that other documents belong to",
      [.enum "status" ["active", "paused", "completed", "archived"] false none "Lifecycle state",
       .array "platforms" true none "Target platforms",
       .string "ios_repo" 0 true "",
       .string "web_repo" 0 true ""],
      ["status", "platforms", "ios_repo", "web_repo"]⟩,
   ⟨"decision", "A recorded decision and its outcome",
      [.enum "status" ["proposed", "accepted", "superseded", "rejected"] false (some "accepted")
         "Decision state",
       .optionalDate "decisionDate" "ISO date the decision was taken",
       .string "outcome" 0 true "What was decided"],
      ["status", "outcome", "decisionDate"]⟩,
   ⟨"idea", "A captured idea; may evolve into a decision or project",
      [.enum "status" ideaStates false none ""], ["status"]⟩,
   ⟨"brainstorm", "A raw captured thought", [.enum "status" ideaStates false none ""], ["status"]⟩,
   ⟨"plan", "Implementation strategy for a feature or task",
      [.enum "status" ["draft", "approved", "done"] false (some "draft") ""], ["status"]⟩,
   ⟨"task", "A unit of planned work",
      [.enum "status" ["todo", "in-progress", "done", "cancelled"] false none "",
       .enum "priority" levels true none "",
       .enum "kind" ["feature", "bug", "chore", "spike"] true none "",
       .string "agent" 0 true "Agent that worked on this task",
       .string "branch" 0 true "Git branch",
       .string "pr" 0 true "PR number or URL"],
      ["status", "priority", "kind", "agent", "branch", "pr"]⟩,
   ⟨"bug", "A defect report with reproduction context",
      [.enum "status" ["open", "investigating", "fixed", "wontfix"] false none "",
       .enum "severity" levels true none "",
       .string "environment" 0 true "",
       .string "steps_to_reproduce" 0 true ""],
      ["status", "severity", "environment", "steps_to_reproduce"]⟩,
   ⟨"spec", "A feature specification",
      [.enum "status" ["draft", "ready", "building", "shipped"] false none "",
       .string "scope" 0 true ""],
      ["status", "scope"]⟩,
   ⟨"spike", "A time-boxed technical investigation",
      [.enum "status" ["open", "done", "abandoned"] false none "",
       .string "timebox" 0 true "",
       .string "findings" 0 true ""],
      ["status", "timebox", "findings"]⟩,
   ⟨"release", "A version milestone",
      [.string "version" 1 false "",
       .enum "status" ["planned", "in-progress", "shipped"] false none ""],
      ["version", "status"]⟩,
   ⟨"documentation", "A written document belonging to a project",
      [.enum "status" ["draft", "review", "published", "deprecated"] false none ""], ["status"]⟩]

namespace Definition

def allFields (d : Definition) : List Field := firstFields d.type ++ d.fields ++ lastFields

/-- The names of a definition's fields are distinct. -/
def IsSound (d : Definition) : Prop := (d.allFields.map Field.name).Nodup

def entry (d : Definition) (h : d.IsSound) : SchemaEntry where
  schema :=
    { typeName := d.type
      fields := d.allFields
      description := d.description
      names_nodup := h
      type_literal := ⟨_, List.mem_append_left _ (List.mem_append_left _ List.mem_cons_self), rfl, rfl⟩ }
  idField := "id"
  referenceFields := referenceFields
  keyOrder := ["type", "id", "title"] ++ d.keys ++ lastKeys

end Definition

theorem definitions_sound : ∀ d ∈ definitions, d.IsSound := by
  unfold Definition.IsSound
  decide +kernel

/-- The entries of the standard types, in order. -/
def entries : List SchemaEntry := definitions.attach.map fun d => d.1.entry (definitions_sound d.1 d.2)

end NoteVault.Standard

namespace NoteVault.Registry

/-- Registers the standard types. -/
def addStandard (r : Registry) : Registry := Standard.entries.foldl put r

/-- The registry of the standard types. -/
def standard : Registry := addStandard empty

end NoteVault.Registry
