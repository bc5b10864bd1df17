import DataMonkey.Lib.Runs
import DataMonkey.Lib.Store
import DataMonkey.Lib.Chain
import DataMonkey.Lib.Blocked
import DataMonkey.Lib.Equidistributed
import DataMonkey.Lib.Records
import DataMonkey.Lib.LowestBit
import DataMonkey.Skip.Model
import DataMonkey.Skip.Rep
import DataMonkey.Skip.Search
import DataMonkey.Skip.Insert
import DataMonkey.Skip.Delete
import DataMonkey.Skip.Finger
import DataMonkey.Skip.Step
import DataMonkey.Skip.Map
import DataMonkey.Skip.Ownership
import DataMonkey.Skip.Cancel
import DataMonkey.Skip.History
import DataMonkey.Skip.Live
import DataMonkey.Skip.Path
import DataMonkey.Skip.Random
import DataMonkey.Skip.Average
import DataMonkey.Flex.Model
import DataMonkey.Flex.Layout
import DataMonkey.Flex.Grow
import DataMonkey.Flex.Access
import DataMonkey.Flex.Laws
import DataMonkey.Flex.Count
import DataMonkey.Flex.Shrink
import DataMonkey.Flex.Spent
import DataMonkey.Flex.Denied
import DataMonkey.Flex.Traverse
import DataMonkey.Flex.Release
import DataMonkey.Flex.Api
import DataMonkey.Flex.Pointers
import DataMonkey.Flex.Work
import DataMonkey.Dyna.Model
import DataMonkey.Dyna.Bounds
import DataMonkey.Dyna.Memory
import DataMonkey.Dyna.Delete
import DataMonkey.Dyna.Growth
import DataMonkey.Dyna.Failure
import DataMonkey.Dyna.Destroy
import DataMonkey.Dyna.Resize
import DataMonkey.Dyna.Ledger
import DataMonkey.Utils.Search
import DataMonkey.Utils.Numeral
import DataMonkey.Utils.Words
import DataMonkey.Lookup3.Model
import DataMonkey.Lookup3.Mix
import DataMonkey.Lookup3.Words
import DataMonkey.Lookup3.Digest
import DataMonkey.Lookup3.Uniform
import DataMonkey.Inotify.Events
