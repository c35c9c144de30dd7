import Rustmatch.ToMathlib.Apportionment
import Rustmatch.ToMathlib.FixedRecords
import Rustmatch.ToMathlib.LabelledGraph
import Rustmatch.ToMathlib.MarkedSearch
import Rustmatch.ToMathlib.MeteredComputations
import Rustmatch.ToMathlib.RelationRuns
import Rustmatch.ToMathlib.RelationSimulations
import Rustmatch.ToMathlib.SortedLists
import Rustmatch.ToMathlib.WordBits
import Rustmatch.ToMathlib.IntervalLists
import Rustmatch.ToMathlib.LanguageLengths
import Rustmatch.ToMathlib.LanguageExtents
import Rustmatch.ToMathlib.ListSlices
import Rustmatch.ToMathlib.ExceptRelations
import Rustmatch.Types
import Rustmatch.Predicate
import Rustmatch.Predicate.Canonical
import Rustmatch.Hir
import Rustmatch.Parser
import Rustmatch.Parser.Grammar
import Rustmatch.Parser.Phrases
import Rustmatch.Parser.Sound
import Rustmatch.Parser.Complete
import Rustmatch.Parser.Accepts
import Rustmatch.Parser.Shift
import Rustmatch.Parser.Checked
import Rustmatch.Parser.Safe
import Rustmatch.Reading
import Rustmatch.Hir.Denotation
import Rustmatch.Hir.Normal
import Rustmatch.Hir.Language
import Rustmatch.Parser.CaseFlag
import Rustmatch.Hir.CompiledRuns
import Rustmatch.Hir.Locality
import Rustmatch.Nfa
import Rustmatch.Nfa.Compilation
import Rustmatch.Nfa.Fragments
import Rustmatch.Nfa.Patterns
import Rustmatch.Nfa.Correct
import Rustmatch.Nfa.SharedCohorts
import Rustmatch.Nfa.Sizes
import Rustmatch.Predicate.Operations
import Rustmatch.Parser.Classes
import Rustmatch.Parser.ClassRanges
import Rustmatch.Nfa.Frames
import Rustmatch.Nfa.Isolation
import Rustmatch.Engine
import Rustmatch.Engine.Frontier
import Rustmatch.Engine.Terminals
import Rustmatch.Engine.Exact
import Rustmatch.ScanStats
import Rustmatch.Cache
import Rustmatch.Cache.Transitions
import Rustmatch.Cache.Invariant
import Rustmatch.Cache.Exact
import Rustmatch.Cache.Run
import Rustmatch.Cache.Counters
import Rustmatch.Prefilter
import Rustmatch.Prefilter.Bitmaps
import Rustmatch.Prefilter.NecessaryPrefix
import Rustmatch.Prefilter.Literals
import Rustmatch.Prefilter.StartTable
import Rustmatch.Prefilter.Generations
import Rustmatch.Prefilter.Candidates
import Rustmatch.Cohort
import Rustmatch.Cohort.Extents
import Rustmatch.Cohort.Prefixes
import Rustmatch.Cohort.Bounds
import Rustmatch.Scan
import Rustmatch.Simd
import Rustmatch.Simd.Checked
import Rustmatch.SharedCandidate
import Rustmatch.Scan.Statistics
import Rustmatch.SharedCandidate.Private
import Rustmatch.SharedCandidate.Bitmaps
import Rustmatch.Scheduler
import Rustmatch.Scheduler.Law
import Rustmatch.Scheduler.Maps
import Rustmatch.Matcher
import Rustmatch.Matcher.Apportionment
import Rustmatch.Matcher.Events
import Rustmatch.Matcher.Scans
import Rustmatch.Matcher.Agreement
import Rustmatch.Matcher.Partitions
import Rustmatch.Matcher.Registrations
import Rustmatch.CohortViews
import Rustmatch.CohortViews.Scans
import Rustmatch.AssertionPrefix
import Rustmatch.Matcher.Diagnostics
import Rustmatch.Matcher.Statistics
import Rustmatch.Matcher.Order
import Rustmatch.Matcher.Windows
import Rustmatch.Matcher.Reports
import Rustmatch.Matcher.Sizes
import Rustmatch.Matcher.Reference
import Rustmatch.CaseFold
import Rustmatch.Matcher.Layout
import Rustmatch.CohortParity
import Rustmatch.CohortParity.Exact
import Rustmatch.CohortParity.Campaign
import Rustmatch.Prefilter.StartSimulation
import Rustmatch.Hir.Widening
import Rustmatch.Matcher.Widening
