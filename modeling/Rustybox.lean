import Rustybox.Lib.Forest
import Rustybox.Lib.InPlace
import Rustybox.Rust.Tokens
import Rustybox.Ed.Replacing
import Rustybox.Libbb.SimplifyPath
import Rustybox.Libbb.PercentDecode
import Rustybox.Archive.UnsafePrefix
import Rustybox.Cpio.Extract
import Rustybox.Cpio.Members
import Rustybox.Cpio.Apart
import Rustybox.Unlzma.Decode
import Rustybox.Unlzma.Bounds
import Rustybox.Archive.PaxHeader
import Rustybox.Archive.TarHeader
import Rustybox.Archive.TarSizes
import Rustybox.Lib.Machine
import Rustybox.Lib.Blocks
import Rustybox.Lib.Disk
import Rustybox.Lib.Skipping
import Rustybox.Lib.Shifts
import Rustybox.Lib.Distinct
import Rustybox.Udhcp.Exclusive
import Rustybox.Udhcp.Quarantine
import Rustybox.Udhcp.Restart
import Rustybox.Udhcp.Searching
import Rustybox.Udhcp.LeaseFile
import Rustybox.Rust.Str
import Rustybox.Rust.Utf8
import Rustybox.Rust.Bytes
import Rustybox.Modern.Xargs
import Rustybox.Modern.MountTable
import Rustybox.Modern.Prune
import Rustybox.Modern.Batch
import Rustybox.Modern.Hashsum
import Rustybox.Modern.Decompress
import Rustybox.Modern.Grep
import Rustybox.Modern.Tar
import Rustybox.Hash.OneShot
import Rustybox.Hash.Sha1
import Rustybox.Spherepop.Relations
import Rustybox.Spherepop.Partition
import Rustybox.Spherepop.Idempotent
import Rustybox.Init.Reaping
import Rustybox.Init.Signals
import Rustybox.Init.Reload
import Rustybox.Ip.Fallthrough
import Rustybox.Shell.Stacks
import Rustybox.Shell.Conditional
import Rustybox.Shell.Order
import Rustybox.Shell.Recursion
import Rustybox.Shell.Bases
import Rustybox.Bc.ReadBack
import Rustybox.Bc.Aliasing
import Rustybox.Bc.Powers
import Rustybox.Bc.ModExp
import Rustybox.Bc.SquareRoot
import Rustybox.Syslog.Agree
import Rustybox.Cron.Flags
import Rustybox.Base64.RoundTrip
import Rustybox.Base64.Progress
import Rustybox.Ed.Session
import Rustybox.Gunzip.Stale
import Rustybox.Gunzip.TopUp
import Rustybox.Gunzip.Header
import Rustybox.Gunzip.Kraft
import Rustybox.Gunzip.Tables
import Rustybox.Gunzip.Freeing
import Rustybox.Lib.Chain
import Rustybox.Lib.Guarded
import Rustybox.Passwd.TwoRuns
import Rustybox.Httpd.Protect
import Rustybox.Dnsd.Sound
import Rustybox.Tftp.Safety
import Rustybox.Mode.Chmod
import Rustybox.Numbers.Xatonum
import Rustybox.Dhcp.OptionList
import Rustybox.Dhcp.Decoding
import Rustybox.Dhcp.SearchList
import Rustybox.Shell.Random
import Rustybox.Shell.Match
import Rustybox.Rust.Strtol
import Rustybox.Cron.ParseField
import Rustybox.Cron.Runs
import Rustybox.Cron.Listed
import Rustybox.Lib.Overwriting
import Rustybox.Syslog.Messages
import Rustybox.Syslog.Enabled
import Rustybox.Syslog.Delivery
import Rustybox.Patch.Patch
import Rustybox.Patch.Search
import Rustybox.Patch.Applying
import Rustybox.Split.Split
import Rustybox.Split.Pieces
import Rustybox.Split.NoLines
import Rustybox.Split.Right
import Rustybox.Tail.Tail
import Rustybox.Tail.Counts
import Rustybox.Tail.LastLines
import Rustybox.Tail.Exact
import Rustybox.Spherepop.Calls
import Rustybox.Lib.Multibyte
import Rustybox.Libbb.Unicode
import Rustybox.Libbb.WideStrings
import Rustybox.Lib.BurrowsWheeler
import Rustybox.Lib.Crc
import Rustybox.Libbb.Crc32
import Rustybox.Coreutils.Cksum
import Rustybox.Bunzip2.Block
import Rustybox.Bunzip2.Output
import Rustybox.Lib.BitString
import Rustybox.Lib.CanonicalCode
import Rustybox.Bunzip2.Bits
import Rustybox.Bunzip2.NextBlock
import Rustybox.Bunzip2.Bounds
import Rustybox.Bunzip2.Decodes
import Rustybox.Bunzip2.Unpack
import Rustybox.Bunzip2.Written
