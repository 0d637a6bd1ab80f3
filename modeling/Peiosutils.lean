import Peiosutils.Lib.Bytes
import Peiosutils.Lib.ByteStore
import Peiosutils.Lib.Sweep
import Peiosutils.Lib.Choose
import Peiosutils.Lib.Utf16
import Peiosutils.Lib.Word
import Peiosutils.Lib.Runs
import Peiosutils.Part.Basics
import Peiosutils.Part.Gpt
import Peiosutils.Part.Header
import Peiosutils.Part.Layout
import Peiosutils.Part.Crash
import Peiosutils.Part.FreeExtents
import Peiosutils.Part.Calls
import Peiosutils.Part.Placement
import Peiosutils.Part.Preserve
import Peiosutils.Part.Best
import Peiosutils.Part.GuidText
import Peiosutils.Lib.Greedy
import Peiosutils.Lib.Keyed
import Peiosutils.Lib.Utf8
import Peiosutils.Mkirf.Archive
import Peiosutils.Mkirf.Hooks
import Peiosutils.Mkirf.Resolve
import Peiosutils.Mkirf.Discover
import Peiosutils.Mkirf.Discovered
import Peiosutils.Mkirf.Sequence
import Peiosutils.Mkirf.Shipped
import Peiosutils.Mkirf.Early
import Peiosutils.Mkirf.Build
import Peiosutils.Mkuki.Append
import Peiosutils.Mkuki.Image
import Peiosutils.Mkuki.Panic
import Peiosutils.Mkuki.Layout
import Peiosutils.Regman.Fragment
import Peiosutils.Regman.Corpus
import Peiosutils.Regman.Index
import Peiosutils.Regman.Located
import Peiosutils.Regman.Serialized
import Peiosutils.Regman.Lookup
import Peiosutils.Regman.Paths
import Peiosutils.Regman.Tiers
import Peiosutils.Regman.Agree
import Peiosutils.Regman.Fresh
import Peiosutils.Regman.Matching
import Peiosutils.Regman.Joined
import Peiosutils.Regman.Decoded
import Peiosutils.Evman.Carriers
import Peiosutils.Lib.While
import Peiosutils.Lib.Blocks
import Peiosutils.Split.OutFiles
import Peiosutils.Split.ByLine
import Peiosutils.Split.LineChunks
import Peiosutils.Lib.WriteAll
import Peiosutils.Split.Sink
import Peiosutils.Split.Partition
import Peiosutils.Split.LineBytes
import Peiosutils.Split.ByByte
import Peiosutils.Lib.Loops
import Peiosutils.Tsort.Order
import Peiosutils.Lib.Lines
import Peiosutils.Lib.LastLines
import Peiosutils.Lib.Cuts
import Peiosutils.Lib.Outcomes
import Peiosutils.Lib.Stable
import Peiosutils.Lib.Heap
import Peiosutils.Lib.Numeral
import Peiosutils.Lib.Decimal
import Peiosutils.Feat.Cmd
import Peiosutils.Feat.Lifecycle
import Peiosutils.RegDocs.Document
import Peiosutils.RegDocs.Exact
import Peiosutils.Sort.Chunks
import Peiosutils.Sort.ReadLines
import Peiosutils.Sort.Merge
import Peiosutils.Sort.MergeSorted
import Peiosutils.Sort.Reread
import Peiosutils.Sort.ExtSort
import Peiosutils.Sort.Printed
import Peiosutils.Sort.Numeric
import Peiosutils.Sort.NumericPrefix
import Peiosutils.Sort.Key
import Peiosutils.Sort.Strings
import Peiosutils.Sort.Compare
import Peiosutils.Sort.Tables
import Peiosutils.Sort.Shortcuts
import Peiosutils.Lib.Lexical
import Peiosutils.Sort.Version
import Peiosutils.Tail.Scan
import Peiosutils.Tail.Backwards
import Peiosutils.Tail.Ring
import Peiosutils.Tail.Agree
import Peiosutils.Dd.Copy
import Peiosutils.Dd.Written
import Peiosutils.Expr.SyntaxTree
import Peiosutils.Expr.Numbered
import Peiosutils.Expr.Stack
import Peiosutils.Lib.Padded
import Peiosutils.Seq.FastInc
import Peiosutils.Seq.Print
import Peiosutils.Lib.Intervals
import Peiosutils.Uucore.Ranges
import Peiosutils.Reg.Literal
import Peiosutils.Mount.Options
import Peiosutils.Lib.Masks
import Peiosutils.Mount.LastWriter
import Peiosutils.Lib.Octal
import Peiosutils.Mount.Mountinfo
import Peiosutils.Mount.Flow
import Peiosutils.Mount.Request
import Peiosutils.Lib.Escaped
import Peiosutils.Stratafs.Model
import Peiosutils.Stratafs.Reading
import Peiosutils.Stratafs.Strata
import Peiosutils.Dd.Short
import Peiosutils.Dd.Count
import Peiosutils.Dd.Converted
import Peiosutils.Csplit.Patterns
import Peiosutils.Csplit.Splitter
import Peiosutils.Csplit.Applied
import Peiosutils.Csplit.Turns
import Peiosutils.Csplit.Runs
import Peiosutils.Csplit.Whole
import Peiosutils.Lib.MergeJoin
import Peiosutils.Join.Lines
import Peiosutils.Join.Merge
import Peiosutils.Join.Joined
import Peiosutils.Head.Take
import Peiosutils.Head.AllButBytes
import Peiosutils.Head.AllButLines
import Peiosutils.Cut.Walk
import Peiosutils.Cut.Chosen
import Peiosutils.Uucore.Base58
import Peiosutils.Revstrm.Time
import Peiosutils.Uucore.Quoting
import Peiosutils.Uucore.CQuoted
import Peiosutils.Uucore.ShellQuoted
import Peiosutils.Split.Number
import Peiosutils.Split.FileNames
import Peiosutils.Lib.Radix
import Peiosutils.Uucore.SizeMeaning
import Peiosutils.Uucore.SizeExact
import Peiosutils.Uucore.SizeVerdict
import Peiosutils.Expr.Cursor
import Peiosutils.Expr.Grammar
import Peiosutils.Lib.Scanner
import Peiosutils.Uucore.NumParser
import Peiosutils.Uucore.NumGrammar
import Peiosutils.Uucore.NumDecimal
import Peiosutils.Uucore.NumReads
import Peiosutils.Part.Retry
import Peiosutils.Part.NaturalOrder
import Peiosutils.Sd.RoundTrip
import Peiosutils.Lib.Unfold
import Peiosutils.Lsblk.Tree
import Peiosutils.Tr.Filled
import Peiosutils.Revstrm.Consumed
import Peiosutils.Lib.Gaps
import Peiosutils.Expand.Tabstops
import Peiosutils.Expand.Reads
import Peiosutils.Unexpand.TabConfig
import Peiosutils.Unexpand.Layout
import Peiosutils.Fmt.Linebreak
import Peiosutils.Checksum.Lines
import Peiosutils.Lib.Base64
import Peiosutils.Checksum.ReadBack
import Peiosutils.Shuf.Run
import Peiosutils.RegDocs.Batch
import Peiosutils.Upgrade.Drain
import Peiosutils.Sort.Check
import Peiosutils.Mount.Umount
