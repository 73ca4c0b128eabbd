import TomitaParser.Grammar.WorkGrammar
import TomitaParser.Grammar.FirstFollow
import TomitaParser.Glr.ItemSets
import TomitaParser.Glr.Collection
import TomitaParser.Glr.Table
import TomitaParser.Glr.Parser
import TomitaParser.Glr.Stack
import TomitaParser.Glr.Trail
import TomitaParser.Glr.Reduce
import TomitaParser.Glr.Search
import TomitaParser.Glr.Level
import TomitaParser.Glr.Shift
import TomitaParser.Glr.Soundness
import TomitaParser.Glr.Frozen
import TomitaParser.Glr.ClosureLoop
import TomitaParser.Glr.Completeness
import TomitaParser.Grammar.RootPrefixes
import TomitaParser.Glr.Termination
import TomitaParser.Trie.AhoKorasick
import TomitaParser.Glr.StartPoints
import TomitaParser.Trie.InputSequence
import TomitaParser.Gzt.References
import TomitaParser.Toma.UnreadBlocks
import TomitaParser.Toma.Options
import TomitaParser.Gzt.CompactStorage
import TomitaParser.Toma.Substitution
import TomitaParser.Glr.CompactTable
import TomitaParser.Glr.Compaction
import TomitaParser.Gzt.ArticleFilter
import TomitaParser.Gzt.CompoundKey
import TomitaParser.Gzt.OptionsEnforced
import TomitaParser.Gzt.BucketFilters
import TomitaParser.Gzt.Alternatives
import TomitaParser.Gzt.ArticlePool
import TomitaParser.Gzt.PoolRoundTrip
import TomitaParser.Gzt.ArticleIter
import TomitaParser.Gzt.PhraseHits
import TomitaParser.Gzt.SearchSteps
import TomitaParser.Gzt.PhraseExact
import TomitaParser.Gzt.CompoundSpans
import TomitaParser.Gzt.CompoundExact
import TomitaParser.Rusie.FilterCheck
import TomitaParser.Rusie.PeriodAmbiguity
import TomitaParser.Rusie.Calendar
import TomitaParser.Rusie.FloatingDate
import TomitaParser.Rusie.DateRoundTrip
import TomitaParser.Rusie.MergedDates
import TomitaParser.Rusie.FactFields
import TomitaParser.Rusie.FactMerge
import TomitaParser.Rusie.FactContent
import TomitaParser.Rusie.FactMergeExact
import TomitaParser.Lib.OrderedMap
import TomitaParser.Glr.ItemOptions
import TomitaParser.Glr.ItemRoundTrip
import TomitaParser.Gzt.TrieBuilder
import TomitaParser.Comptrie.Builder
import TomitaParser.Comptrie.Keys
import TomitaParser.Lib.Median
import TomitaParser.Comptrie.Layout
import TomitaParser.Comptrie.Search
import TomitaParser.Comptrie.Lookup
import TomitaParser.Comptrie.FiniteMap
import TomitaParser.Grammar.OutCount
import TomitaParser.Glr.Canonical
import TomitaParser.Grammar.FirstFollowExact
import TomitaParser.Glr.Unlimited
import TomitaParser.Toma.Agreements
import TomitaParser.Toma.Enforcement
import TomitaParser.Lib.SwapRemoval
import TomitaParser.Lib.Traversal
import TomitaParser.Toma.UnrefRules
import TomitaParser.Toma.Downgrade
import TomitaParser.Toma.DowngradeEnds
import TomitaParser.Lib.Interning
import TomitaParser.Toma.Symbols
import TomitaParser.Lib.LongestSuffix
import TomitaParser.Trie.Patterns
import TomitaParser.Lib.LevelOrder
import TomitaParser.Trie.Failure
import TomitaParser.Trie.ChildrenArray
import TomitaParser.Trie.Occurrences
import TomitaParser.Rusie.HomonymMasks
import TomitaParser.Rusie.NewItems
import TomitaParser.Gzt.AgrFilter
import TomitaParser.Gzt.ExactCase
import TomitaParser.Gzt.WordNumbers
import TomitaParser.Rus.ComplexNumbers
import TomitaParser.Rus.DateFields
import TomitaParser.Gzt.WordSpellings
import TomitaParser.Lib.Pieces
import TomitaParser.Gzt.Retokenize
import TomitaParser.Gzt.SingleAgreement
import TomitaParser.Rusie.GroupWeightBounds
import TomitaParser.Gzt.Gleiche
import TomitaParser.Comptrie.Node
import TomitaParser.Comptrie.Iterator
import TomitaParser.Comptrie.Positions
import TomitaParser.Comptrie.UpperBound
import TomitaParser.Comptrie.SearchTree
import TomitaParser.Comptrie.SavedTree
import TomitaParser.Comptrie.Iteration
import TomitaParser.Comptrie.WriteableNode
import TomitaParser.Comptrie.Packers
import TomitaParser.Comptrie.IntegralRoundTrip
import TomitaParser.Comptrie.PackerRoundTrip
import TomitaParser.Comptrie.SearchIterator
import TomitaParser.Comptrie.Contents
import TomitaParser.Comptrie.LookupAgreement
import TomitaParser.Comptrie.BuiltTries
import TomitaParser.Comptrie.PrefixGrouped
import TomitaParser.Lib.Tiling
import TomitaParser.Rusie.WordIndexes
import TomitaParser.Text.Primitives
import TomitaParser.Text.ComplexGroup
import TomitaParser.Rusie.HomonymOrder
import TomitaParser.Lib.ComparedMap
import TomitaParser.Rusie.PeriodSearch
import TomitaParser.Rusie.PeriodSearchRuns
import TomitaParser.Text.SentenceStretches
import TomitaParser.Comptrie.GroupedBuilder
import TomitaParser.Comptrie.GroupedOrder
import TomitaParser.Text.CreatePrimitives
import TomitaParser.Text.PrimGroups
import TomitaParser.Text.GroupTiling
import TomitaParser.Gzt.BranchLimit
import TomitaParser.Lib.Odometer
import TomitaParser.Gzt.Combinations
import TomitaParser.Comptrie.MeasureEnds
import TomitaParser.Lib.Components
import TomitaParser.Rusie.CompanyGroups
import TomitaParser.Rusie.LeadPeriods
import TomitaParser.Gzt.PackedVectors
import TomitaParser.Rusie.MaskReaders
import TomitaParser.Lib.ComparedTree
import TomitaParser.Rusie.NameSelection
import TomitaParser.Lib.PathSearch
import TomitaParser.Glr.ReducerPaths
import TomitaParser.Rusie.KeyWords
import TomitaParser.Rusie.RestoredLemmas
import TomitaParser.Rusie.AlternativeTraces
import TomitaParser.Glr.Enabled
import TomitaParser.Trie.RootSpans
import TomitaParser.Trie.RunParser
import TomitaParser.Glr.CompactRuns
import TomitaParser.Geo.ArticleHierarchy
import TomitaParser.Geo.GeoHierarchy
import TomitaParser.Grammar.KwTypePool
import TomitaParser.Comptrie.BuiltIteration
import TomitaParser.Lib.Binary64
