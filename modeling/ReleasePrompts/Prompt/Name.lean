import ReleasePrompts.Pairs
import ReleasePrompts.Text.Quoted
import ReleasePrompts.Text.Search

/-!
# The prompts of a release

Six prompts are looked for in a release, each by a marker: a text that occurs in no other one. Each
has a key by which it is asked for, and two wordings, one for the head of a tab and one for saying
that the prompt is missing.
-/

namespace ReleasePrompts.Prompt

/-- A prompt of a release. -/
inductive Name where
  | system
  | compact
  | bash
  | init
  | todo
  | bashPrefix
  deriving DecidableEq, Repr

namespace Name

/-- All prompts, in the order in which they are shown. -/
def all : List Name := [system, compact, bash, init, todo, bashPrefix]

/-- The key of a prompt. -/
def key : Name → String
  | system => "system"
  | compact => "compact"
  | bash => "bash"
  | init => "init"
  | todo => "todo"
  | bashPrefix => "bash_prefix"

/-- The head of the tab of a prompt. -/
def label : Name → String
  | system => "System"
  | compact => "Conversation Compacting"
  | bash => "Bash Tools"
  | init => "Init"
  | todo => "Todo tool"
  | bashPrefix => "Bash Prefix"

/-- What a message calls a prompt that is missing. -/
def missing : Name → String
  | system => "System prompt"
  | compact => "Conversation compacting prompt"
  | bash => "Bash tools prompt"
  | init => "/init prompt"
  | todo => "Todo list prompt"
  | bashPrefix => "Bash prefix prompt"

/-- The text by which a prompt is found. -/
def marker : Name → String
  | system => "You are an interactive CLI tool"
  | compact => "Your task is to create a detailed summary of the conversation"
  | bash => "Executes a given bash command in a persistent shell"
  | init => "Please analyze this codebase and create a CLAUDE.md file"
  | todo => "Use this tool to create and manage a structured task list"
  | bashPrefix => "This document defines risk levels for actions that the"

/-- The prompt of a key. -/
def ofKey? (key : String) : Option Name := all.find? fun name => name.key = key

theorem ofKey?_key (name : Name) : ofKey? name.key = some name := by cases name <;> rfl

/-- What is said of a text that is no key. -/
def unknownKeyMessage (key : String) : String :=
  String.ofList (Text.quoted key.toList) ++ " is not a valid PromptName"

/-- The keys of all prompts, as a message lists them. -/
def keyList : String := String.intercalate ", " (all.map key)

end Name

/-- Markers of prompts, in the order in which the prompts are looked for. -/
abbrev Markers := List (Name × String)

/-- The marker of every prompt. -/
def defaultMarkers : Markers := Name.all.map fun name => (name, name.marker)

end ReleasePrompts.Prompt
