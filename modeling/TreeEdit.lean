import TreeEdit.CommandLine.Arguments
import TreeEdit.CommandLine.Session
import TreeEdit.Context.Basic
import TreeEdit.Context.Dictionary
import TreeEdit.Context.Reference
import TreeEdit.Edit.Merge
import TreeEdit.Edit.Plan
import TreeEdit.Edit.Table
import TreeEdit.Edit.Verb
import TreeEdit.Error
import TreeEdit.Files.Basic
import TreeEdit.Files.Path
import TreeEdit.Format.Basic
import TreeEdit.Format.Properties
import TreeEdit.Json.Number
import TreeEdit.Json.Reader
import TreeEdit.Json.Writer
import TreeEdit.Log
import TreeEdit.Macro
import TreeEdit.Main
import TreeEdit.Number.Basic
import TreeEdit.Number.Double
import TreeEdit.Number.Reader
import TreeEdit.Number.Shortest
import TreeEdit.Pattern.Basic
import TreeEdit.Pattern.Walk
import TreeEdit.Proofs.Agreement
import TreeEdit.Proofs.Answers
import TreeEdit.Proofs.Blocks
import TreeEdit.Proofs.Brackets
import TreeEdit.Proofs.Children
import TreeEdit.Proofs.Cleared
import TreeEdit.Proofs.CollapsedPatterns
import TreeEdit.Proofs.CountedEnds
import TreeEdit.Proofs.Cursors
import TreeEdit.Proofs.CutTexts
import TreeEdit.Proofs.DeleteAtMatches
import TreeEdit.Proofs.Digits
import TreeEdit.Proofs.DottedNames
import TreeEdit.Proofs.EditAt
import TreeEdit.Proofs.EnclosedClasses
import TreeEdit.Proofs.EnclosedEscapes
import TreeEdit.Proofs.EnclosedGroups
import TreeEdit.Proofs.EventBlocks
import TreeEdit.Proofs.ExpandedTrees
import TreeEdit.Proofs.Failures
import TreeEdit.Proofs.FallibleSteps
import TreeEdit.Proofs.FullWalk
import TreeEdit.Proofs.GivenBack
import TreeEdit.Proofs.Growth
import TreeEdit.Proofs.InTurn
import TreeEdit.Proofs.InsertAtMatches
import TreeEdit.Proofs.InsertedEntries
import TreeEdit.Proofs.JsonReadBack
import TreeEdit.Proofs.Kept
import TreeEdit.Proofs.Keywords
import TreeEdit.Proofs.LastFirst
import TreeEdit.Proofs.Lenses
import TreeEdit.Proofs.LetterKeys
import TreeEdit.Proofs.Lookups
import TreeEdit.Proofs.LoopValues
import TreeEdit.Proofs.MacroPieces
import TreeEdit.Proofs.Merges
import TreeEdit.Proofs.Nodes
import TreeEdit.Proofs.NumberText
import TreeEdit.Proofs.OptionOrder
import TreeEdit.Proofs.Outcomes
import TreeEdit.Proofs.PlainDocuments
import TreeEdit.Proofs.PropertyLines
import TreeEdit.Proofs.PropertyPieces
import TreeEdit.Proofs.PrunedWalks
import TreeEdit.Proofs.ReadBack
import TreeEdit.Proofs.Reading
import TreeEdit.Proofs.RenderedPatterns
import TreeEdit.Proofs.RepeatedGreedy
import TreeEdit.Proofs.ReplaceAtMatches
import TreeEdit.Proofs.ReplaceThenRead
import TreeEdit.Proofs.Rewrite
import TreeEdit.Proofs.RootCauses
import TreeEdit.Proofs.Rounding
import TreeEdit.Proofs.Run
import TreeEdit.Proofs.Structured
import TreeEdit.Proofs.Stubs
import TreeEdit.Proofs.UnknownCommands
import TreeEdit.Proofs.Untouched
import TreeEdit.Proofs.Views
import TreeEdit.Proofs.Walks
import TreeEdit.Proofs.WholeKeys
import TreeEdit.Regex.Basic
import TreeEdit.Regex.Parser
import TreeEdit.Script.Basic
import TreeEdit.Script.Command
import TreeEdit.Script.Run
import TreeEdit.Script.Words
import TreeEdit.Text.Blank
import TreeEdit.Toml.Reader
import TreeEdit.Toml.Table
import TreeEdit.Toml.Writer
import TreeEdit.Tree.Basic
import TreeEdit.Tree.Location
import TreeEdit.Tree.Same
import TreeEdit.Unicode.Category
import TreeEdit.Unicode.Fold
import TreeEdit.Unicode.Script
import TreeEdit.World
import TreeEdit.Yaml.Dialect
import TreeEdit.Yaml.Ink
import TreeEdit.Yaml.Node
import TreeEdit.Yaml.Place
import TreeEdit.Yaml.Plain.Reader
import TreeEdit.Yaml.Plain.Scalar
import TreeEdit.Yaml.Plain.Tokens
import TreeEdit.Yaml.Plain.Value
import TreeEdit.Yaml.Plain.Writer
import TreeEdit.Yaml.Tagged.Reader
import TreeEdit.Yaml.Tagged.Scalar
import TreeEdit.Yaml.Tagged.Tokens
import TreeEdit.Yaml.Tagged.Writer
import TreeEdit.Yaml.Token
