import BearLang.CallPrograms
import BearLang.ProgramReachability
import BearLang.ProgramConduct
import BearLang.MachineRefinement
import BearLang.ObservedRuns
import BearLang.CallTraces
import BearLang.AcyclicRelations
import BearLang.Occurrences
import BearLang.LinkedChains
import BearLang.StructuredPrograms
import BearLang.MaximalMunch
import BearLang.LexicalScopes
import BearLang.CInitialisers
import BearLang.MarkupGrammar
import BearLang.Values
import BearLang.Lexer
import BearLang.Machine
import BearLang.ListOps
import BearLang.Contexts
import BearLang.Evaluator
import BearLang.Reader
import BearLang.Printer
import BearLang.Builtins
import BearLang.Compiler
import BearLang.Runtime
import BearLang.Discipline
import BearLang.CodeDiscipline
import BearLang.BuiltinDiscipline
import BearLang.RuntimeDiscipline
import BearLang.Execution
import BearLang.EvaluatedValues
import BearLang.SymbolInterning
import BearLang.HashTable
import BearLang.HashTableOrder
import BearLang.HashTableRuns
import BearLang.HashedSymbols
import BearLang.StateInvariants
import BearLang.HeapRegions
import BearLang.ContextRefinement
import BearLang.ListEvaluation
import BearLang.ArgumentBinding
import BearLang.OperandEvaluation
import BearLang.OperandsOnce
import BearLang.Tokens
import BearLang.Lexemes
import BearLang.Trees
import BearLang.ProgramText
import BearLang.FormGrammar
import BearLang.ReaderCorrectness
import BearLang.ParseFile
import BearLang.Rendering
import BearLang.Printing
import BearLang.PrintedTokens
import BearLang.ReadBack
import BearLang.SerialiseRoundTrip
import BearLang.ValuePool
import BearLang.VariableLookup
import BearLang.OperatorCalls
import BearLang.SubExpressions
import BearLang.SharedNumbers
import BearLang.Assignments
import BearLang.OperatorActivations
import BearLang.ContextStores
import BearLang.BindingFaults
import BearLang.CallSafety
import BearLang.SharedConstants
import BearLang.ListGraphs
import BearLang.FiniteLists
import BearLang.EmittedCode
import BearLang.CompiledExpressions
import BearLang.XmlTrees
import BearLang.XmlGenerate
import BearLang.XmlEvaluation
import BearLang.XmlElements
import BearLang.EqualValues
import BearLang.Handlers
import BearLang.Iteration
import BearLang.ListContents
import BearLang.ListFunctions
import BearLang.Conditionals
import BearLang.Mapping
import BearLang.ListFrames
import BearLang.ErrorPropagation
import BearLang.SplitStrings
import BearLang.XmlEscape
import BearLang.StringLiterals
import BearLang.Comments
import BearLang.EffectFree
import BearLang.AddModes
import BearLang.Division
import BearLang.CoreLanguage
import BearLang.CoreExpressions
import BearLang.CoreForms
import BearLang.CoreEvaluation
import BearLang.CoreText
import BearLang.CoreFunctions
import BearLang.DecimalDigits
import BearLang.PalindromeFunction
import BearLang.QualifiedNames
import BearLang.NestedImports
import BearLang.RelatedPrograms
import BearLang.Relocation
import BearLang.RelocatedCode
import BearLang.RelocatedRuntime
import BearLang.AgreeingStates
import BearLang.BodyRunner
import BearLang.ActivationIsolation
import BearLang.ArgumentChecks
import BearLang.ElementOrder
import BearLang.ListPrimitives
import BearLang.FixedIntegers
import BearLang.FormattedOutput
import BearLang.Completion
import BearLang.LineDirectives
import BearLang.ModuleBindings
